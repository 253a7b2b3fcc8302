import HackVM.Proofs.Execution
import HackVM.Proofs.Linking

/-! # The stack machine

What commands do, said without any code. A state is a position in the list of commands and a memory. A
command works on cells of the memory, and cannot use a cell that does not exist or that is kept for the
code itself. Labels belong to the function, or outside any function to the unit, around them. A call
saves the address of the instruction behind it, and a return continues wherever a saved address leads.
-/

namespace HackVM

/-- Work on the memory, which may be impossible. -/
abbrev Effect := StateT Memory Option

namespace Effect

/-- Whether programs may use a cell: it exists and is none of the two scratch cells. -/
def usable (address : Word) : Bool := address.toNat < memorySize && address != 13 && address != 14

/-- The word in a cell. -/
def read (address : Word) : Effect Word := fun memory =>
  if usable address then some (memory.read address, memory) else none

/-- Replace the word in a cell. -/
def write (address value : Word) : Effect Unit := fun memory =>
  if usable address then some ((), memory.write address value) else none

/-- A value that may be missing. -/
def ofOption {α : Type} (value : Option α) : Effect α := fun memory => value.map fun value => (value, memory)

/-- Put a word on the stack. -/
def push (value : Word) : Effect Unit := do
  let top ← read 0
  write top value
  write 0 (top + 1)

/-- Take a word from the stack. -/
def pop : Effect Word := do
  let top ← read 0
  write 0 (top - 1)
  read (top - 1)

/-- Replace the top of the stack by a function of it. -/
def unary (function : Word → Word) : Effect Unit := do
  push (function (← pop))

/-- Replace the two topmost words by a function of the lower and the upper one. -/
def binary (function : Word → Word → Word) : Effect Unit := do
  let upper ← pop
  let lower ← pop
  push (function lower upper)

/-- A truth value: all ones or zero. -/
def truth (holds : Bool) : Word := if holds then -1 else 0

/-- Apply an operator. Comparisons go by the sign of the difference, modulo 2 ^ 16. -/
def operate : Operator → Effect Unit
  | .add => binary fun lower upper => lower + upper
  | .sub => binary fun lower upper => lower - upper
  | .neg => unary fun value => -value
  | .eq => binary fun lower upper => truth ((lower - upper).toInt = 0)
  | .gt => binary fun lower upper => truth (0 < (lower - upper).toInt)
  | .lt => binary fun lower upper => truth ((lower - upper).toInt < 0)
  | .and => binary fun lower upper => lower &&& upper
  | .or => binary fun lower upper => lower ||| upper
  | .not => unary fun value => ~~~value

/-- Push zeros. -/
def zeros : Nat → Effect Unit
  | 0 => return
  | count + 1 => do
    push 0
    zeros count

/-- Save a frame, and aim the pointers at the arguments and the locals of the callee. -/
def call (returnAddress arguments : Word) : Effect Unit := do
  push returnAddress
  push (← read 1)
  push (← read 2)
  push (← read 3)
  push (← read 4)
  let top ← read 0
  write 2 (top - arguments - 5)
  write 1 top

/-- Hand the result over, take the pointers of the caller back and tell the return address, which is read
first. -/
def ret : Effect Word := do
  let frame ← read 1
  let returnAddress ← read (frame - 5)
  let result ← pop
  write (← read 2) result
  write 0 ((← read 2) + 1)
  write 4 (← read (frame - 1))
  write 3 (← read (frame - 2))
  write 2 (← read (frame - 3))
  write 1 (← read (frame - 4))
  return returnAddress

theorem usable_iff {address : Word} :
    usable address = true ↔ address.toNat < memorySize ∧ address ≠ 13 ∧ address ≠ 14 := by
  simp [usable, and_assoc]

theorem bind_eq_some_iff {α β : Type} {first : Effect α} {second : α → Effect β} {memory final : Memory}
    {result : β} :
    (first >>= second) memory = some (result, final) ↔
      ∃ value middle, first memory = some (value, middle) ∧ second value middle = some (result, final) := by
  simp only [bind, StateT.bind, Option.bind_eq_some_iff, Prod.exists]

theorem read_eq_some_iff {address value : Word} {memory next : Memory} :
    read address memory = some (value, next) ↔
      usable address = true ∧ value = memory.read address ∧ memory = next := by
  by_cases room : usable address = true
  · simp [read, room, @eq_comm _ value]
  · simp [read, room]

theorem write_eq_some_iff {address value : Word} {memory next : Memory} {result : Unit} :
    write address value memory = some (result, next) ↔
      usable address = true ∧ next = memory.write address value := by
  by_cases room : usable address = true
  · simp [write, room, @eq_comm _ next]
  · simp [write, room]

theorem ofOption_eq_some_iff {α : Type} {option : Option α} {value : α} {memory next : Memory} :
    ofOption option memory = some (value, next) ↔ option = some value ∧ memory = next := by
  cases option <;> simp [ofOption]

theorem push_eq_some_iff {value : Word} {memory next : Memory} {result : Unit} :
    push value memory = some (result, next) ↔ usable (memory.read 0) = true ∧
      next = (memory.write (memory.read 0) value).write 0 (memory.read 0 + 1) := by
  simp only [push, bind_eq_some_iff, read_eq_some_iff, write_eq_some_iff]
  constructor
  · rintro ⟨_, _, ⟨-, rfl, rfl⟩, _, _, ⟨room, rfl⟩, -, rfl⟩
    exact ⟨room, rfl⟩
  · rintro ⟨room, rfl⟩
    exact ⟨_, _, ⟨rfl, rfl, rfl⟩, (), _, ⟨room, rfl⟩, rfl, rfl⟩

theorem pop_eq_some_iff {value : Word} {memory next : Memory} :
    pop memory = some (value, next) ↔ usable (memory.read 0 - 1) = true ∧
      next = memory.write 0 (memory.read 0 - 1) ∧ value = next.read (memory.read 0 - 1) := by
  simp only [pop, bind_eq_some_iff, read_eq_some_iff, write_eq_some_iff]
  constructor
  · rintro ⟨_, _, ⟨-, rfl, rfl⟩, _, _, ⟨-, rfl⟩, room, rfl, rfl⟩
    exact ⟨room, rfl, rfl⟩
  · rintro ⟨room, rfl, rfl⟩
    exact ⟨_, _, ⟨rfl, rfl, rfl⟩, (), _, ⟨rfl, rfl⟩, room, rfl, rfl⟩

theorem usable_zero : usable 0 = true := rfl

theorem zero_bound : (0 : Word).toNat < memorySize := by decide

theorem usable_pointer (pointer : Pointer) : usable pointer.cell = true := by cases pointer <;> rfl

theorem pointer_bound (pointer : Pointer) : pointer.cell.toNat < memorySize :=
  (usable_iff.mp (usable_pointer pointer)).1

theorem cell_range (pointer : Pointer) : 1 ≤ pointer.cell.toNat ∧ pointer.cell.toNat ≤ 4 := by
  cases pointer <;> decide

theorem frame_bound : (13 : Word).toNat < memorySize := by decide

theorem returnAddress_bound : (14 : Word).toNat < memorySize := by decide

/-- A unary operation replaces the topmost word. -/
theorem unary_eq_some {function : Word → Word} {memory next : Memory} {result : Unit}
    (deep : 256 ≤ (memory.read 0).toNat) (success : unary function memory = some (result, next)) :
    usable (memory.read 0 - 1) = true ∧
      next = memory.write (memory.read 0 - 1) (function (memory.read (memory.read 0 - 1))) := by
  simp only [unary, bind_eq_some_iff, pop_eq_some_iff, push_eq_some_iff] at success
  obtain ⟨_, _, ⟨room, rfl, rfl⟩, -, rfl⟩ := success
  refine ⟨room, ?_⟩
  have other : memory.read 0 - 1 ≠ 0 := by bv_omega
  rw [Memory.read_write_self _ zero_bound, Memory.read_write_of_ne _ other, BitVec.sub_add_cancel,
    Memory.write_comm _ other, Memory.write_write, Memory.write_read _ zero_bound]

/-- A binary operation shortens the stack by one and replaces the word that is topmost then. -/
theorem binary_eq_some {function : Word → Word → Word} {memory next : Memory} {result : Unit}
    (deep : 256 ≤ (memory.read 0).toNat) (success : binary function memory = some (result, next)) :
    usable (memory.read 0 - 1) = true ∧ usable (memory.read 0 - 1 - 1) = true ∧
      next = (memory.write 0 (memory.read 0 - 1)).write (memory.read 0 - 1 - 1)
        (function (memory.read (memory.read 0 - 1 - 1)) (memory.read (memory.read 0 - 1))) := by
  simp only [binary, bind_eq_some_iff, pop_eq_some_iff, push_eq_some_iff] at success
  obtain ⟨_, _, ⟨upper, rfl, rfl⟩, _, _, ⟨lower, rfl, rfl⟩, -, rfl⟩ := success
  have first : memory.read 0 - 1 ≠ 0 := by bv_omega
  have second : memory.read 0 - 1 - 1 ≠ 0 := by bv_omega
  simp only [Memory.read_write_self _ zero_bound] at lower ⊢
  refine ⟨upper, lower, ?_⟩
  rw [Memory.write_write, Memory.read_write_of_ne _ first, Memory.read_write_of_ne _ second,
    BitVec.sub_add_cancel, Memory.write_comm _ second, Memory.write_write]

/-- Cells of the stack differ from the cells below it. -/
theorem ne_of_deep {address low : Word} (deep : 256 ≤ address.toNat) (small : low.toNat < 256) :
    address ≠ low := by
  rintro rfl
  omega

theorem usable_of_deep {address : Word} (deep : 256 ≤ address.toNat) (high : address.toNat ≤ 32767) :
    usable address = true :=
  usable_iff.mpr ⟨Nat.lt_succ_of_le high, ne_of_deep deep (by decide), ne_of_deep deep (by decide)⟩

theorem exists_write {address : Word} (room : usable address = true) (value : Word) (memory : Memory) :
    ∃ next, write address value memory = some ((), next) ∧ next.read address = value ∧
      ∀ query, query ≠ address → next.read query = memory.read query :=
  ⟨_, write_eq_some_iff.mpr ⟨room, rfl⟩, Memory.read_write_self _ (usable_iff.mp room).1 _,
    fun _ other => Memory.read_write_of_ne _ other _⟩

theorem exists_push {memory : Memory} (low : 256 ≤ (memory.read 0).toNat) (high : (memory.read 0).toNat ≤ 32767)
    (value : Word) :
    ∃ next, push value memory = some ((), next) ∧ next.read 0 = memory.read 0 + 1 ∧
      next.read (memory.read 0) = value ∧
      ∀ query, query ≠ 0 → query ≠ memory.read 0 → next.read query = memory.read query := by
  have room := usable_of_deep low high
  refine ⟨_, push_eq_some_iff.mpr ⟨room, rfl⟩, Memory.read_write_self _ zero_bound _, ?_, ?_⟩
  · rw [Memory.read_write_of_ne _ (ne_of_deep low (by decide)), Memory.read_write_self _ (usable_iff.mp room).1]
  · intro query zero top
    rw [Memory.read_write_of_ne _ zero, Memory.read_write_of_ne _ top]

end Effect

/-- A program for the stack machine: its commands, the address of their code and the cells of the static
variables. -/
structure StackMachine where
  sites : List Site
  base : Nat
  static? : String → Option Word

namespace StackMachine

open Effect

/-- A position in the list of commands and a memory. -/
structure State where
  position : Nat
  memory : Memory

/-- The address of the code at a position. -/
def address (machine : StackMachine) (position : Nat) : Nat :=
  machine.base + Site.size (machine.sites.take position)

/-- The cell of an index in a segment. -/
def cell (machine : StackMachine) (unit : String) (segment : Segment) (index : Word) : Effect Word :=
  match segment with
  | .constant => ofOption none
  | .locals => return (← read 1) + index
  | .argument => return (← read 2) + index
  | .this => return (← read 3) + index
  | .that => return (← read 4) + index
  | .static => ofOption (machine.static? (staticSymbol unit index))
  | .pointer => return 3 + index
  | .temp => return 5 + index

/-- The word at an index of a segment. -/
def entry (machine : StackMachine) (unit : String) (segment : Segment) (index : Word) : Effect Word :=
  match segment with
  | .constant => return index
  | _ => do read (← machine.cell unit segment index)

/-- The position of a label in the scope of a command. -/
def labelPosition? (machine : StackMachine) (site : Site) (name : String) : Option Nat :=
  machine.sites.findIdx? fun other =>
    other.command = .label name && other.unit = site.unit && other.function = site.function

/-- The position of a function. -/
def functionPosition? (machine : StackMachine) (name : String) : Option Nat :=
  machine.sites.findIdx? fun site => site.command.entered? = some name

/-- The first position whose code is at an address. -/
def addressPosition? (machine : StackMachine) (word : Word) : Option Nat :=
  (List.range (machine.sites.length + 1)).find? fun position => machine.address position = word.toNat

/-- Execute the command at a position, and tell the next position. -/
def execute (machine : StackMachine) (position : Nat) (site : Site) : Effect Nat :=
  match site.command with
  | .arithmetic operator => do
    operate operator
    return position + 1
  | .push segment index => do
    push (← machine.entry site.unit segment index)
    return position + 1
  | .pop segment index => do
    let target ← machine.cell site.unit segment index
    write target (← pop)
    return position + 1
  | .label _ => return position + 1
  | .goto name => ofOption (machine.labelPosition? site name)
  | .ifGoto name => do
    if (← pop) = 0 then return position + 1
    ofOption (machine.labelPosition? site name)
  | .function _ locals => do
    zeros locals.toNat
    return position + 1
  | .call name arguments => do
    call (BitVec.ofNat 16 (machine.address (position + 1))) arguments
    ofOption (machine.functionPosition? name)
  | .ret => do
    ofOption (machine.addressPosition? (← ret))

/-- One step. -/
def step? (machine : StackMachine) (state : State) : Option State := do
  let site ← machine.sites[state.position]?
  let (position, memory) ← machine.execute state.position site state.memory
  return ⟨position, memory⟩

theorem step?_eq_some_iff {machine : StackMachine} {state next : State} :
    machine.step? state = some next ↔ ∃ site, machine.sites[state.position]? = some site ∧
      machine.execute state.position site state.memory = some (next.position, next.memory) := by
  simp only [step?, bind, Option.bind_eq_some_iff]
  constructor
  · rintro ⟨site, here, ⟨position, memory⟩, executed, returned⟩
    cases returned
    exact ⟨site, here, executed⟩
  · rintro ⟨site, here, executed⟩
    exact ⟨site, here, _, executed, rfl⟩

/-- The stack pointer is in the room of the stack. -/
def State.inStack (state : State) : Bool :=
  256 ≤ (state.memory.read 0).toNat && (state.memory.read 0).toNat ≤ 32767

/-- A number of steps with the stack pointer in the room of the stack from the first state to the last. -/
def run? (machine : StackMachine) : Nat → State → Option State
  | 0, state => if state.inStack then some state else none
  | steps + 1, state => if state.inStack then do machine.run? steps (← machine.step? state) else none

theorem run?_succ {machine : StackMachine} {state next : State} {steps : Nat} (room : state.inStack = true)
    (stepped : machine.step? state = some next) : machine.run? (steps + 1) state = machine.run? steps next := by
  rw [run?, if_pos room, stepped]
  rfl

/-- The stack machine of a program, with the static variables where an image has them. -/
def ofProgram (options : BuildOptions) (units : List SourceUnit) (image : Image) : StackMachine where
  sites := Site.ofUnits units
  base := options.startSize units
  static? name := image.symbols[name]?

end StackMachine

end HackVM
