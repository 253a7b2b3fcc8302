import Mathlib.Logic.Relation
import HackVM.Machine.Run
import HackVM.Proofs.Resolution

/-! # Executing lines

The memory is addressed by words; `Memory.read` and `Memory.write` are how an instruction uses it. A
machine reaches another by steps of the image. `Line.run?` executes lines without jumps as they stand,
and an image that holds them makes the machine do the same.
-/

namespace HackVM

namespace Memory

/-- The word in a cell, and zero beyond the memory. -/
def read (memory : Memory) (address : Word) : Word := memory[address.toNat]?.getD 0

/-- Replace the word in a cell. Beyond the memory nothing is replaced. -/
def write (memory : Memory) (address value : Word) : Memory := memory.setIfInBounds address.toNat value

theorem read_write (memory : Memory) {address : Word} (bound : address.toNat < memorySize) (value query : Word) :
    (memory.write address value).read query = if query = address then value else memory.read query := by
  rw [read, write, Vector.getElem?_setIfInBounds]
  by_cases same : query = address
  · simp [same, bound]
  · have other : address.toNat ≠ query.toNat := fun equal => same (BitVec.eq_of_toNat_eq equal.symm)
    simp [same, other, read]

theorem read_write_self (memory : Memory) {address : Word} (bound : address.toNat < memorySize) (value : Word) :
    (memory.write address value).read address = value := by
  rw [read_write memory bound, if_pos rfl]

theorem read_write_of_ne (memory : Memory) {address query : Word} (other : query ≠ address) (value : Word) :
    (memory.write address value).read query = memory.read query := by
  have differ : address.toNat ≠ query.toNat := fun equal => other (BitVec.eq_of_toNat_eq equal.symm)
  rw [read, write, Vector.getElem?_setIfInBounds, if_neg differ, read]

/-- Memories that hold the same words are equal. -/
theorem ext_read {first second : Memory} (same : ∀ address, first.read address = second.read address) :
    first = second := by
  apply Vector.ext
  intro index bound
  have small : index < 65536 := Nat.lt_trans bound (by decide)
  have words := same (BitVec.ofNat 16 index)
  simpa [read, Nat.mod_eq_of_lt small, bound] using words

theorem write_write (memory : Memory) (address first second : Word) :
    (memory.write address first).write address second = memory.write address second :=
  Vector.setIfInBounds_setIfInBounds first

theorem write_comm (memory : Memory) {address other : Word} (differ : address ≠ other) (first second : Word) :
    (memory.write address first).write other second = (memory.write other second).write address first := by
  have places : address.toNat ≠ other.toNat := fun equal => differ (BitVec.eq_of_toNat_eq equal)
  apply Vector.toArray_inj.mp
  simpa [write] using Array.setIfInBounds_comm first second places

theorem write_read (memory : Memory) {address : Word} (bound : address.toNat < memorySize) :
    memory.write address (memory.read address) = memory := by
  apply ext_read
  intro query
  rw [read_write memory bound]
  split
  · rename_i same
    rw [same]
  · rfl

/-- Some memory holds given words in given cells. -/
theorem exists_holding {cells : List (Word × Word)} (distinct : (cells.map Prod.fst).Nodup)
    (inside : ∀ cell ∈ cells, cell.1.toNat < memorySize) :
    ∃ memory : Memory, ∀ cell ∈ cells, memory.read cell.1 = cell.2 := by
  induction cells with
  | nil => exact ⟨Vector.replicate memorySize 0, nofun⟩
  | cons first rest ih =>
    obtain ⟨apart, distinct⟩ := List.nodup_cons.mp distinct
    obtain ⟨bound, inside⟩ := List.forall_mem_cons.mp inside
    obtain ⟨memory, holds⟩ := ih distinct inside
    refine ⟨memory.write first.1 first.2, List.forall_mem_cons.mpr ⟨read_write_self _ bound _, ?_⟩⟩
    intro cell member
    rw [read_write_of_ne, holds cell member]
    intro same
    exact apart (List.mem_map.mpr ⟨cell, member, same⟩)

end Memory

namespace Image

/-- The machine executes the instruction that its counter selects. -/
def Steps (image : Image) (cpu next : Cpu) : Prop :=
  ∃ instruction, image.instructions[cpu.pc]? = some instruction ∧ cpu.execute instruction = .ok () next

/-- The machine gets from one state to another. -/
def Reaches (image : Image) : Cpu → Cpu → Prop := Relation.ReflTransGen image.Steps

/-- A bounded run passes through every state that is reached. -/
theorem Reaches.runSteps {image : Image} {cpu next : Cpu} (reached : image.Reaches cpu next) :
    ∃ used, ∀ limit steps, image.runSteps limit (used + steps) cpu = image.runSteps limit steps next := by
  induction reached using Relation.ReflTransGen.head_induction_on with
  | refl => exact ⟨0, fun limit steps => by rw [Nat.zero_add]⟩
  | head step later ih =>
    obtain ⟨instruction, fetched, executed⟩ := step
    obtain ⟨used, same⟩ := ih
    refine ⟨used + 1, fun limit steps => ?_⟩
    rw [Nat.add_right_comm, Image.runSteps, fetched]
    simp only [executed, same]

/-- Where the program ends, the machine is in one state. -/
theorem Reaches.eq_of_ended {image : Image} {cpu first second : Cpu} (left : image.Reaches cpu first)
    (right : image.Reaches cpu second) (here : image.instructions[first.pc]? = none)
    (there : image.instructions[second.pc]? = none) : first = second := by
  obtain ⟨used, left⟩ := left.runSteps
  obtain ⟨taken, right⟩ := right.runSteps
  have runs : image.runSteps 0 (taken + 1) first = image.runSteps 0 (used + 1) second := by
    rw [← left, ← right, Nat.add_left_comm]
  rw [Image.runSteps, Image.runSteps, here, there] at runs
  cases runs
  rfl

/-- The machine gets from one state to another by instructions in front of an address. -/
def ReachesBelow (image : Image) (limit : Nat) : Cpu → Cpu → Prop :=
  Relation.ReflTransGen fun cpu next => cpu.pc < limit ∧ image.Steps cpu next

section ReachesBelow

variable {image : Image} {limit : Nat} {cpu next : Cpu} (reached : image.ReachesBelow limit cpu next)

include reached

theorem ReachesBelow.reaches : image.Reaches cpu next :=
  Relation.ReflTransGen.mono (fun _ _ step => And.right step) cpu next reached

theorem ReachesBelow.mono {larger : Nat} (within : limit ≤ larger) : image.ReachesBelow larger cpu next :=
  Relation.ReflTransGen.mono (fun _ _ step => And.imp_left (Nat.lt_of_lt_of_le · within) step) cpu next reached

/-- A bounded run up to an address passes through every state that is reached in front of it. -/
theorem ReachesBelow.runStepsUntil {stop : Nat} (ahead : limit ≤ stop) :
    ∃ used, ∀ label bound steps,
      image.runStepsUntil label stop bound (used + steps) cpu = image.runStepsUntil label stop bound steps next := by
  induction reached using Relation.ReflTransGen.head_induction_on with
  | refl => exact ⟨0, fun label bound steps => by rw [Nat.zero_add]⟩
  | head step later ih =>
    obtain ⟨before, instruction, fetched, executed⟩ := step
    obtain ⟨used, same⟩ := ih
    refine ⟨used + 1, fun label bound steps => ?_⟩
    rw [Nat.add_right_comm, Image.runStepsUntil, if_neg (by omega), fetched]
    simp only [executed, same]

end ReachesBelow

end Image

/-- A function of the registers does not depend on the memory cell. -/
theorem Comp.eval_of_register {comp : Comp} (register : comp.readsMemory = false) (inD inA first second : Word) :
    comp.eval inD inA first = comp.eval inD inA second := by
  cases comp with
  | read source | not source | neg source | inc source | dec source | add source | dMinus source | minusD source
  | and source | or source =>
    cases source with
    | a => rfl
    | m => contradiction
  | zero | one | minusOne | d | notD | negD | incD | decD => rfl

namespace Cpu

/-- Whether an instruction touches the memory cell. -/
def touchesMemory (dest : Dest) (comp : Comp) : Bool := dest.m || comp.readsMemory

/-- The machine after a computed word is stored. -/
def stored (cpu : Cpu) (dest : Dest) (comp : Comp) : Cpu :=
  let value := comp.eval cpu.d cpu.a (cpu.memory.read cpu.a)
  { memory := if dest.m then cpu.memory.write cpu.a value else cpu.memory
    a := if dest.a then value else cpu.a
    d := if dest.d then value else cpu.d
    pc := cpu.pc + 1 }

section Execute

variable {cpu : Cpu} {dest : Dest} {comp : Comp}

/-- Within the memory a word is computed, and nothing is stored yet. -/
theorem evaluate_of_bound (bound : comp.readsMemory = true → cpu.a.toNat < memorySize) :
    evaluate comp cpu = .ok (comp.eval cpu.d cpu.a (cpu.memory.read cpu.a)) cpu := by
  refine Runs.state_bind_eq_ok_iff.mpr ⟨cpu, cpu, rfl, ?_⟩
  cases reads : comp.readsMemory with
  | true =>
    have present : cpu.memory[cpu.a.toNat]? = some (cpu.memory.read cpu.a) := by simp [Memory.read, bound reads]
    rw [if_pos rfl, peek, present]
    rfl
  | false =>
    rw [if_neg Bool.false_ne_true, Comp.eval_of_register reads _ _ _ 0]
    rfl

private theorem evaluate_of_beyond (reads : comp.readsMemory = true) (beyond : memorySize ≤ cpu.a.toNat) :
    evaluate comp cpu = .error .outOfBounds cpu := by
  have absent : cpu.memory[cpu.a.toNat]? = none := by simpa using beyond
  refine Runs.state_bind_eq_error_iff.mpr (.inr ⟨cpu, cpu, rfl, ?_⟩)
  rw [if_pos reads, peek, absent]
  rfl

/-- Within the memory an instruction stores the word that it computes, and goes where its condition says. -/
theorem execute_of_bound (bound : touchesMemory dest comp = true → cpu.a.toNat < memorySize) (jump : Option Jump) :
    cpu.execute (.compute dest comp jump) = .ok () { cpu.stored dest comp with
      pc := if jump.any (·.holds (comp.eval cpu.d cpu.a (cpu.memory.read cpu.a))) then cpu.a.toNat
        else cpu.pc + 1 } := by
  have word := @evaluate_of_bound cpu comp fun reads => bound (by simp [touchesMemory, reads])
  refine Runs.state_bind_eq_ok_iff.mpr ⟨cpu, cpu, rfl, Runs.state_bind_eq_ok_iff.mpr ⟨_, cpu, word, ?_⟩⟩
  obtain ⟨inA, inM, inD⟩ := dest
  cases inM with
  | true =>
    have inside : cpu.a.toNat < memorySize := bound rfl
    refine Runs.state_bind_eq_ok_iff.mpr ⟨(), _, if_pos inside, ?_⟩
    cases inA <;> cases inD <;> rfl
  | false => cases inA <;> cases inD <;> rfl

/-- Beyond the memory it stops before it has stored anything. -/
theorem execute_of_beyond (touches : touchesMemory dest comp = true) (beyond : memorySize ≤ cpu.a.toNat)
    (jump : Option Jump) : cpu.execute (.compute dest comp jump) = .error .outOfBounds cpu := by
  refine Runs.state_bind_eq_error_iff.mpr (.inr ⟨cpu, cpu, rfl, ?_⟩)
  cases reads : comp.readsMemory with
  | true => exact Runs.state_bind_eq_error_iff.mpr (.inl (evaluate_of_beyond reads beyond))
  | false =>
    -- the word is computed, and the memory is the first place where it is stored
    have word := @evaluate_of_bound cpu comp fun reading => absurd reading (by simp [reads])
    have inM : dest.m = true := by simpa [touchesMemory, reads] using touches
    refine Runs.state_bind_eq_error_iff.mpr (.inr ⟨_, cpu, word, ?_⟩)
    rw [if_pos inM]
    exact Runs.state_bind_eq_error_iff.mpr (.inl (if_neg (Nat.not_lt.mpr beyond)))

/-- An instruction does all that it has to do, or nothing. -/
theorem execute_cases (cpu : Cpu) (dest : Dest) (comp : Comp) (jump : Option Jump) :
    cpu.execute (.compute dest comp jump) = .error .outOfBounds cpu ∨
      ∃ pc, (jump = none → pc = cpu.pc + 1) ∧
        cpu.execute (.compute dest comp jump) = .ok () { cpu.stored dest comp with pc } := by
  by_cases bound : touchesMemory dest comp = true → cpu.a.toNat < memorySize
  · refine .inr ⟨_, ?_, execute_of_bound bound jump⟩
    rintro rfl
    rfl
  · obtain ⟨touches, beyond⟩ := Classical.not_imp.mp bound
    exact .inl (execute_of_beyond touches (Nat.not_lt.mp beyond) jump)

/-- An instruction that cannot be executed changes nothing. -/
theorem execute_eq_error {stopped : Cpu} {instruction : Instruction} {fault : Fault}
    (failed : cpu.execute instruction = .error fault stopped) : fault = .outOfBounds ∧ stopped = cpu := by
  cases instruction with
  | load value => contradiction
  | compute dest comp jump =>
    rcases cpu.execute_cases dest comp jump with beyond | ⟨pc, -, executed⟩
    · rw [beyond] at failed
      cases failed
      exact ⟨rfl, rfl⟩
    · rw [executed] at failed
      contradiction

private theorem execute_store (bound : touchesMemory dest comp = true → cpu.a.toNat < memorySize) :
    cpu.execute (.compute dest comp none) = .ok () (cpu.stored dest comp) :=
  execute_of_bound bound none

private theorem execute_jump (register : comp.readsMemory = false) (condition : Jump) :
    cpu.execute (.compute {} comp (some condition)) = .ok () { cpu with
      pc := if condition.holds (comp.eval cpu.d cpu.a (cpu.memory.read cpu.a)) then cpu.a.toNat else cpu.pc + 1 } :=
  execute_of_bound (fun touches => absurd touches (by simp [touchesMemory, register])) (some condition)

/-- Without a condition the machine goes on to the next instruction. -/
theorem pc_of_execute {next : Cpu} {value : Unit} (success : cpu.execute (.compute dest comp none) = .ok value next) :
    next.pc = cpu.pc + 1 := by
  rcases cpu.execute_cases dest comp none with beyond | ⟨pc, straight, executed⟩
  · rw [beyond] at success
    contradiction
  · rw [executed] at success
    cases success
    exact straight rfl

end Execute

end Cpu

namespace Line

/-- Execute lines as they stand. A jump is not a matter of the lines alone. -/
def run? (symbols : SymbolTable) : List Line → Cpu → Option Cpu
  | [], cpu => some cpu
  | comment _ :: rest, cpu | label _ :: rest, cpu => run? symbols rest cpu
  | operation code :: rest, cpu =>
    match code.resolve? symbols with
    | some (.load value) => run? symbols rest { cpu with a := value, pc := cpu.pc + 1 }
    | some (.compute dest comp none) =>
      match cpu.execute (.compute dest comp none) with
      | .ok _ next => run? symbols rest next
      | .error _ _ => none
    | some (.compute _ _ (some _)) | none => none

section Run

variable {symbols : SymbolTable} {cpu : Cpu}

theorem run?_append (first second : List Line) :
    run? symbols (first ++ second) cpu = (run? symbols first cpu).bind (run? symbols second) := by
  induction first generalizing cpu with
  | nil => rfl
  | cons line rest ih =>
    cases line with
    | comment text => exact ih
    | label name => exact ih
    | operation code =>
      simp only [List.cons_append, run?]
      split
      · exact ih
      · split
        · exact ih
        · rfl
      · rfl
      · rfl

theorem run?_symbol {name : String} {address : Word} (bound : symbols[name]? = some address) (rest : List Line) :
    run? symbols (symbol name :: rest) cpu = run? symbols rest { cpu with a := address, pc := cpu.pc + 1 } := by
  simp [symbol, run?, Operation.resolve?, bound]

theorem run?_number (value : Word) (rest : List Line) :
    run? symbols (number value :: rest) cpu = run? symbols rest { cpu with a := value, pc := cpu.pc + 1 } := rfl

theorem run?_store {dest : Dest} {comp : Comp}
    (bound : Cpu.touchesMemory dest comp = true → cpu.a.toNat < memorySize) (rest : List Line) :
    run? symbols (store dest comp :: rest) cpu = run? symbols rest (cpu.stored dest comp) := by
  simp [store, run?, Operation.resolve?, Cpu.execute_store bound]

theorem run?_register {dest : Dest} {comp : Comp} (register : Cpu.touchesMemory dest comp = false)
    (rest : List Line) :
    run? symbols (store dest comp :: rest) cpu = run? symbols rest (cpu.stored dest comp) :=
  run?_store (fun touches => absurd touches (by simp [register])) rest

end Run

end Line

/-- A machine at lines that an image holds executes them and no others, and stands behind them. -/
theorem Image.CodeAt.reachesBelow {image : Image} {lines : List Line} {cpu next : Cpu}
    (code : image.CodeAt cpu.pc lines) (ran : Line.run? image.symbols lines cpu = some next) :
    image.ReachesBelow (cpu.pc + Line.size lines) cpu next ∧ next.pc = cpu.pc + Line.size lines := by
  induction lines generalizing cpu with
  | nil =>
    cases ran
    exact ⟨.refl, rfl⟩
  | cons line rest ih =>
    cases line with
    | comment text => simpa using ih code ran
    | label name => simpa using ih code.2 ran
    | operation operation =>
      obtain ⟨⟨instruction, resolved, fetched⟩, later⟩ := code
      have first : ∀ middle, cpu.execute instruction = .ok () middle → middle.pc = cpu.pc + 1 →
          Line.run? image.symbols rest middle = some next →
          image.ReachesBelow (cpu.pc + Line.size (.operation operation :: rest)) cpu next ∧
            next.pc = cpu.pc + Line.size (.operation operation :: rest) := by
        intro middle executed moved ran
        rw [← moved] at later
        obtain ⟨reached, position⟩ := ih later ran
        have behind : middle.pc + Line.size rest = cpu.pc + Line.size (.operation operation :: rest) := by
          rw [moved, Line.size_operation]
          omega
        rw [behind] at reached position
        exact ⟨.head ⟨by rw [Line.size_operation]; omega, instruction, fetched, executed⟩ reached, position⟩
      rw [Line.run?, resolved] at ran
      cases instruction with
      | load value => exact first _ rfl rfl ran
      | compute dest comp jump =>
        cases jump with
        | some condition => contradiction
        | none =>
          simp only at ran
          split at ran
          · rename_i middle executed
            exact first middle executed (Cpu.pc_of_execute executed) ran
          · contradiction

theorem Image.CodeAt.reaches {image : Image} {lines : List Line} {cpu next : Cpu}
    (code : image.CodeAt cpu.pc lines) (ran : Line.run? image.symbols lines cpu = some next) :
    image.Reaches cpu next ∧ next.pc = cpu.pc + Line.size lines :=
  (code.reachesBelow ran).imp_left Image.ReachesBelow.reaches

/-- A machine gets behind lines that an image holds and can go on with those that follow. -/
theorem Image.CodeAt.advance {image : Image} {first second : List Line} {cpu middle : Cpu}
    (code : image.CodeAt cpu.pc (first ++ second)) (ran : Line.run? image.symbols first cpu = some middle) :
    image.Reaches cpu middle ∧ image.CodeAt middle.pc second := by
  obtain ⟨here, later⟩ := codeAt_append.mp code
  obtain ⟨reached, position⟩ := here.reaches ran
  exact ⟨reached, by rwa [position]⟩

section Jump

variable {image : Image} {comp : Comp} {condition : Jump} {rest : List Line} {cpu : Cpu}
  (code : image.CodeAt cpu.pc (.jump comp condition :: rest)) (register : comp.readsMemory = false)

include code register

/-- A jump on a word that does not come from memory goes to the address in A if the word meets the
condition. -/
theorem Image.CodeAt.jump_steps (holds : condition.holds (comp.eval cpu.d cpu.a (cpu.memory.read cpu.a)) = true) :
    image.Steps cpu { cpu with pc := cpu.a.toNat } := by
  obtain ⟨⟨instruction, resolved, fetched⟩, -⟩ := code
  cases resolved
  refine ⟨_, fetched, ?_⟩
  rw [Cpu.execute_jump register, holds]
  rfl

theorem Image.CodeAt.jump_taken (holds : condition.holds (comp.eval cpu.d cpu.a (cpu.memory.read cpu.a)) = true) :
    image.Reaches cpu { cpu with pc := cpu.a.toNat } :=
  .single (code.jump_steps register holds)

/-- Otherwise the machine goes on. -/
theorem Image.CodeAt.jump_past (fails : condition.holds (comp.eval cpu.d cpu.a (cpu.memory.read cpu.a)) = false) :
    image.Reaches cpu { cpu with pc := cpu.pc + 1 } := by
  obtain ⟨⟨instruction, resolved, fetched⟩, -⟩ := code
  cases resolved
  refine .single ⟨_, fetched, ?_⟩
  rw [Cpu.execute_jump register, fails]
  rfl

end Jump

/-- The cells of the names that every program knows. -/
theorem Image.predefined_of_mem {name : String} {address : Word}
    (member : (name, address) ∈ [("SP", 0), ("LCL", 1), ("ARG", 2), ("THIS", 3), ("THAT", 4), ("SCREEN", 16384),
      ("KBD", 24576)] ++ (List.range 16).map fun register => ("R" ++ register.repr, BitVec.ofNat 16 register)) :
    predefined[name]? = some address := by
  refine Std.TreeMap.getElem?_ofList_of_mem (by simp) ?_ member
  simp only [Std.compare_eq_iff_eq]
  decide

/-- The cell that holds a pointer. -/
def Pointer.cell : Pointer → Word
  | locals => 1
  | argument => 2
  | this => 3
  | that => 4

namespace SymbolTable

variable {symbols : SymbolTable} (known : symbols.Extends Image.predefined)

include known

theorem known_sp : symbols["SP"]? = some 0 := known _ _ (Image.predefined_of_mem (by decide))

theorem known_pointer (pointer : Pointer) : symbols[pointer.symbol]? = some pointer.cell := by
  apply known
  apply Image.predefined_of_mem
  cases pointer <;> decide

theorem known_register {register : Nat} (bound : register < 16) :
    symbols["R" ++ register.repr]? = some (BitVec.ofNat 16 register) := by
  refine known _ _ (Image.predefined_of_mem (List.mem_append_right _ ?_))
  exact List.mem_map.mpr ⟨register, List.mem_range.mpr bound, rfl⟩

theorem known_frame : symbols["R13"]? = some 13 := known_register known (by decide : 13 < 16)

theorem known_returnAddress : symbols["R14"]? = some 14 := known_register known (by decide : 14 < 16)

end SymbolTable

end HackVM
