import HackVM.Proofs.StackMachine

/-! # Templates do what commands do

Wherever an effect of the stack machine succeeds, the code of its template has the same effect. The memory
of the machine may differ from that of the stack machine in the two scratch cells, which the code of some
templates uses in passing. Code without jumps is executed as a whole; code with jumps reaches the address
that it continues at.
-/

namespace HackVM

namespace Memory

/-- Two memories hold the same words outside the two scratch cells. -/
def Agrees (memory reference : Memory) : Prop :=
  ∀ address, address ≠ 13 → address ≠ 14 → memory.read address = reference.read address

namespace Agrees

variable {memory reference : Memory}

theorem refl (memory : Memory) : memory.Agrees memory := fun _ _ _ => rfl

theorem read (agrees : memory.Agrees reference) {address : Word} (room : Effect.usable address = true) :
    memory.read address = reference.read address := by
  obtain ⟨-, first, second⟩ := Effect.usable_iff.mp room
  exact agrees address first second

theorem write (agrees : memory.Agrees reference) {address : Word} (room : Effect.usable address = true)
    (value : Word) : (memory.write address value).Agrees (reference.write address value) := by
  obtain ⟨bound, -⟩ := Effect.usable_iff.mp room
  intro query first second
  rw [read_write _ bound, read_write _ bound, agrees query first second]

theorem scratch (agrees : memory.Agrees reference) {address : Word} (kept : address = 13 ∨ address = 14)
    (value : Word) : (memory.write address value).Agrees reference := by
  intro query first second
  rw [read_write_of_ne, agrees query first second]
  rcases kept with rfl | rfl
  · exact first
  · exact second

end Agrees

/-- The memory with a word put on the stack. -/
def pushed (memory : Memory) (value : Word) : Memory :=
  (memory.write (memory.read 0) value).write 0 (memory.read 0 + 1)

theorem stack_pushed (memory : Memory) (value : Word) : (memory.pushed value).read 0 = memory.read 0 + 1 := by
  rw [pushed, read_write_self _ Effect.zero_bound]

end Memory

/-- The machine gets from a state to an address, with a memory that agrees with a given one there. -/
def Image.Arrives (image : Image) (cpu : Cpu) (address : Nat) (memory : Memory) : Prop :=
  ∃ after, image.Reaches cpu after ∧ after.memory.Agrees memory ∧ after.pc = address

namespace Template

open Line Effect

variable {symbols : SymbolTable} (known : symbols.Extends Image.predefined) {cpu : Cpu}

include known

/-- Code that pushes a word which does not come from memory. -/
theorem run_push {comp : Comp} {value : Word} (computes : ∀ inA inM, comp.eval cpu.d inA inM = value)
    (low : cpu.memory.read 0 ≠ 0) (room : (cpu.memory.read 0).toNat < memorySize) :
    run? symbols [symbol "SP", store .M (.inc .m), store .A (.dec .m), store .M comp] cpu = some { cpu with
      memory := cpu.memory.pushed value
      a := cpu.memory.read 0
      pc := cpu.pc + 4 } := by
  have target : (cpu.memory.write 0 (cpu.memory.read 0 + 1)).read 0 - 1 = cpu.memory.read 0 := by
    rw [Memory.read_write_self _ zero_bound, BitVec.add_sub_cancel]
  have bound : ((cpu.memory.write 0 (cpu.memory.read 0 + 1)).read 0 - 1).toNat < memorySize := by rwa [target]
  rw [run?_symbol (SymbolTable.known_sp known), run?_store (fun _ => zero_bound),
    run?_store (fun _ => zero_bound), run?_store (fun _ => bound), run?, Memory.pushed, Memory.write_comm _ low]
  simp only [Cpu.stored, Dest.M, Dest.A, Bool.false_eq_true, ↓reduceIte, computes]
  simp only [Comp.eval, Source.pick, target]

private theorem run_popD (low : cpu.memory.read 0 - 1 ≠ 0) (room : (cpu.memory.read 0 - 1).toNat < memorySize) :
    run? symbols popD cpu = some { cpu with
      memory := cpu.memory.write 0 (cpu.memory.read 0 - 1)
      a := cpu.memory.read 0 - 1
      d := cpu.memory.read (cpu.memory.read 0 - 1)
      pc := cpu.pc + 3 } := by
  rw [popD, run?_symbol (SymbolTable.known_sp known), run?_store (fun _ => zero_bound),
    run?_store (fun _ => room), run?, ← Memory.read_write_of_ne cpu.memory low (cpu.memory.read 0 - 1)]
  rfl

/-- Code that replaces the topmost word. -/
theorem run_unary (comp : Comp) (room : (cpu.memory.read 0 - 1).toNat < memorySize) :
    run? symbols (unary comp) cpu = some { cpu with
      memory := cpu.memory.write (cpu.memory.read 0 - 1)
        (comp.eval cpu.d (cpu.memory.read 0 - 1) (cpu.memory.read (cpu.memory.read 0 - 1)))
      a := cpu.memory.read 0 - 1
      pc := cpu.pc + 3 } := by
  rw [unary, run?_symbol (SymbolTable.known_sp known), run?_store (fun _ => zero_bound),
    run?_store (fun _ => room), run?]
  rfl

section Push

variable (low : cpu.memory.read 0 ≠ 0) (room : (cpu.memory.read 0).toNat < memorySize)

include low room

/-- The code that pushes the word in D. -/
theorem run_pushD : ∃ after, run? symbols pushD cpu = some after ∧ after.memory = cpu.memory.pushed cpu.d :=
  ⟨_, run_push known (fun _ _ => rfl) low room, rfl⟩

/-- The code that pushes the word in a named cell. -/
theorem run_pushCell {name : String} {address : Word} (bound : symbols[name]? = some address)
    (inside : address.toNat < memorySize) :
    ∃ after, run? symbols (pushCell name) cpu = some after ∧
      after.memory = cpu.memory.pushed (cpu.memory.read address) := by
  rw [pushCell, List.cons_append, List.cons_append, List.nil_append, run?_symbol bound,
    run?_store (fun _ => inside)]
  exact run_pushD known low room

/-- The code that pushes the address of a name. -/
theorem run_pushAddress {name : String} {address : Word} (bound : symbols[name]? = some address) :
    ∃ after, run? symbols (pushAddress name) cpu = some after ∧ after.memory = cpu.memory.pushed address := by
  rw [pushAddress, List.cons_append, List.cons_append, List.nil_append, run?_symbol bound,
    run?_register rfl]
  exact run_pushD known low room

/-- The code that pushes a number. -/
theorem run_pushNumber (value : Word) :
    ∃ after, run? symbols (push (.immediate value)) cpu = some after ∧ after.memory = cpu.memory.pushed value := by
  rw [push, List.cons_append, List.cons_append, List.nil_append, run?_number, run?_register rfl]
  exact run_pushD known low room

/-- The code that pushes the word at an offset from a pointer. -/
theorem run_pushIndirect {base : Pointer} {offset : Word}
    (inside : (cpu.memory.read base.cell + offset).toNat < memorySize) :
    ∃ after, run? symbols (push (.indirect base offset)) cpu = some after ∧
      after.memory = cpu.memory.pushed (cpu.memory.read (cpu.memory.read base.cell + offset)) := by
  rw [push, List.cons_append, run?_symbol (SymbolTable.known_pointer known base), List.cons_append,
    run?_store (fun _ => pointer_bound base), List.cons_append, run?_number, List.cons_append,
    run?_register rfl, List.cons_append, run?_store (fun _ => inside), List.nil_append]
  exact run_pushD known low room

end Push

section Pop

variable (low : cpu.memory.read 0 - 1 ≠ 0) (room : (cpu.memory.read 0 - 1).toNat < memorySize)

include low room

/-- Code that replaces the two topmost words. -/
theorem run_binary (comp : Comp) (lower : cpu.memory.read 0 - 1 - 1 ≠ 0)
    (inside : (cpu.memory.read 0 - 1 - 1).toNat < memorySize) :
    ∃ after, run? symbols (binary comp) cpu = some after ∧
      after.memory = (cpu.memory.write 0 (cpu.memory.read 0 - 1)).write (cpu.memory.read 0 - 1 - 1)
        (comp.eval (cpu.memory.read (cpu.memory.read 0 - 1)) (cpu.memory.read 0 - 1 - 1)
          (cpu.memory.read (cpu.memory.read 0 - 1 - 1))) := by
  rw [binary, run?_append, run_popD known low room, Option.bind_some, run?_register rfl,
    run?_store (fun _ => inside)]
  refine ⟨_, rfl, ?_⟩
  simp only [Cpu.stored, Dest.M, Dest.A, Bool.false_eq_true, ↓reduceIte]
  simp only [Comp.eval, Source.pick, Memory.read_write_of_ne _ lower]

/-- The code that pops a word into a named cell. -/
theorem run_popCell {name : String} {address : Word} (bound : symbols[name]? = some address)
    (inside : address.toNat < memorySize) :
    ∃ after, run? symbols (popCell name) cpu = some after ∧
      after.memory = (cpu.memory.write 0 (cpu.memory.read 0 - 1)).write address
        (cpu.memory.read (cpu.memory.read 0 - 1)) := by
  rw [popCell, run?_append, run_popD known low room, Option.bind_some, run?_symbol bound,
    run?_store (fun _ => inside)]
  exact ⟨_, rfl, rfl⟩

/-- The code that pops a word into the cell at an offset from a pointer keeps the target in a scratch cell. -/
theorem run_popIndirect {base : Pointer} {offset target : Word}
    (aimed : cpu.memory.read base.cell + offset = target) (inside : target.toNat < memorySize)
    (apart : cpu.memory.read 0 - 1 ≠ 13) :
    ∃ after, run? symbols (popIndirect base offset) cpu = some after ∧
      after.memory = ((cpu.memory.write 13 target).write 0 (cpu.memory.read 0 - 1)).write target
        (cpu.memory.read (cpu.memory.read 0 - 1)) := by
  obtain ⟨saved, ran, memory⟩ : ∃ saved,
      run? symbols [symbol base.symbol, store .D (.read .m), number offset, store .D (.add .a), symbol "R13",
        store .M .d] cpu = some saved ∧ saved.memory = cpu.memory.write 13 target := by
    rw [run?_symbol (SymbolTable.known_pointer known base), run?_store (fun _ => pointer_bound base),
      run?_number, run?_register rfl, run?_symbol (SymbolTable.known_frame known),
      run?_store (fun _ => frame_bound), run?, ← aimed]
    exact ⟨_, rfl, rfl⟩
  have top : saved.memory.read 0 = cpu.memory.read 0 := by
    rw [memory, Memory.read_write_of_ne _ (by decide)]
  have popped : saved.memory.read (saved.memory.read 0 - 1) = cpu.memory.read (cpu.memory.read 0 - 1) := by
    rw [top, memory, Memory.read_write_of_ne _ apart]
  have back : (saved.memory.write 0 (saved.memory.read 0 - 1)).read 13 = target := by
    rw [Memory.read_write_of_ne _ (by decide), memory, Memory.read_write_self _ frame_bound]
  have bound : ((saved.memory.write 0 (saved.memory.read 0 - 1)).read 13).toNat < memorySize := by rwa [back]
  rw [← top] at low room
  rw [popIndirect, run?_append, run?_append, ran, Option.bind_some, run_popD known low room, Option.bind_some,
    run?_symbol (SymbolTable.known_frame known), run?_store (fun _ => frame_bound), run?_store (fun _ => bound)]
  refine ⟨_, rfl, ?_⟩
  simp only [Cpu.stored, Dest.M, Dest.A, Bool.false_eq_true, ↓reduceIte, Comp.eval, Source.pick]
  rw [back, popped, top, memory]

/-- The code in front of the branches of a comparison leaves the difference in D. -/
theorem run_difference (lower : cpu.memory.read 0 - 1 - 1 ≠ 0)
    (inside : (cpu.memory.read 0 - 1 - 1).toNat < memorySize) :
    ∃ middle, run? symbols (popD ++ [store .A (.dec .a), store .D (.minusD .m)]) cpu = some middle ∧
      middle.memory = cpu.memory.write 0 (cpu.memory.read 0 - 1) ∧
      middle.d = cpu.memory.read (cpu.memory.read 0 - 1 - 1) - cpu.memory.read (cpu.memory.read 0 - 1) ∧
      middle.pc = cpu.pc + 5 := by
  rw [run?_append, run_popD known low room, Option.bind_some, run?_register rfl, run?_store (fun _ => inside),
    run?]
  refine ⟨_, rfl, rfl, ?_, rfl⟩
  simp only [Cpu.stored, Dest.A, Dest.D, Bool.false_eq_true, ↓reduceIte, Comp.eval, Source.pick,
    Memory.read_write_of_ne _ lower]

end Pop

/-- The code that aims the pointers of a callee at its arguments and its locals. -/
theorem run_aim (arguments : Word) :
    ∃ after, run? symbols [symbol "SP", store .D (.read .m), number (arguments + frameSize), store .D (.dMinus .a),
        symbol "ARG", store .M .d, symbol "SP", store .D (.read .m), symbol "LCL", store .M .d] cpu =
        some after ∧
      after.memory = (cpu.memory.write 2 (cpu.memory.read 0 - arguments - 5)).write 1 (cpu.memory.read 0) := by
  have locals : symbols["LCL"]? = some 1 := SymbolTable.known_pointer known .locals
  have argument : symbols["ARG"]? = some 2 := SymbolTable.known_pointer known .argument
  rw [run?_symbol (SymbolTable.known_sp known), run?_store (fun _ => zero_bound), run?_number,
    run?_register rfl, run?_symbol argument, run?_store (fun _ => pointer_bound .argument),
    run?_symbol (SymbolTable.known_sp known), run?_store (fun _ => zero_bound), run?_symbol locals,
    run?_store (fun _ => pointer_bound .locals), run?]
  refine ⟨_, rfl, ?_⟩
  simp only [Cpu.stored, Dest.M, Dest.D, Bool.false_eq_true, ↓reduceIte, Comp.eval, Source.pick]
  rw [Memory.read_write_of_ne _ (by decide), frameSize, BitVec.sub_sub]

section Stack

variable {reference next : Memory} (agrees : cpu.memory.Agrees reference)
  (deep : 256 ≤ (reference.read 0).toNat)

include agrees deep

omit known in
/-- Wherever the stack machine can push, there is room in an agreeing memory, and it still agrees with the
word pushed. -/
theorem room_of_push {value : Word} {result : Unit} (pushed : Effect.push value reference = some (result, next)) :
    cpu.memory.read 0 ≠ 0 ∧ (cpu.memory.read 0).toNat < memorySize ∧ (cpu.memory.pushed value).Agrees next ∧
      256 ≤ (next.read 0).toNat := by
  obtain ⟨room, rfl⟩ := push_eq_some_iff.mp pushed
  have top : cpu.memory.read 0 = reference.read 0 := agrees.read usable_zero
  obtain ⟨bound, -⟩ := usable_iff.mp room
  rw [Memory.pushed, top]
  refine ⟨ne_of_deep deep (by decide), bound, (agrees.write room _).write usable_zero _, ?_⟩
  rw [Memory.read_write_self _ zero_bound]
  have size : memorySize = 32768 := rfl
  bv_omega

omit known in
/-- Wherever the stack machine can pop, the cell exists in an agreeing memory and holds the same word. -/
theorem room_of_pop {value : Word} (popped : Effect.pop reference = some (value, next)) :
    cpu.memory.read 0 - 1 ≠ 0 ∧ (cpu.memory.read 0 - 1).toNat < memorySize ∧ cpu.memory.read 0 - 1 ≠ 13 ∧
      cpu.memory.read (cpu.memory.read 0 - 1) = value ∧
      (cpu.memory.write 0 (cpu.memory.read 0 - 1)).Agrees next := by
  obtain ⟨room, rfl, rfl⟩ := pop_eq_some_iff.mp popped
  have top : cpu.memory.read 0 = reference.read 0 := agrees.read usable_zero
  have nonzero : reference.read 0 - 1 ≠ 0 := by bv_omega
  obtain ⟨bound, other, -⟩ := usable_iff.mp room
  rw [Memory.read_write_of_ne _ nonzero, ← agrees.read room, top]
  exact ⟨nonzero, bound, other, rfl, agrees.write usable_zero _⟩

private theorem push_pushes {comp : Comp} {value : Word} (computes : ∀ inA inM, comp.eval cpu.d inA inM = value)
    {result : Unit} (pushed : Effect.push value reference = some (result, next)) :
    ∃ after,
      run? symbols [symbol "SP", store .M (.inc .m), store .A (.dec .m), store .M comp] cpu = some after ∧
      after.memory.Agrees next ∧ 256 ≤ (next.read 0).toNat := by
  obtain ⟨low, room, agrees, deep⟩ := room_of_push agrees deep pushed
  exact ⟨_, run_push known computes low room, agrees, deep⟩

/-- The code that pushes the word in a named cell. -/
theorem pushCell_pushes {name : String} {address : Word} {result : Unit}
    (bound : symbols[name]? = some address) (usable : usable address = true)
    (pushed : Effect.push (reference.read address) reference = some (result, next)) :
    ∃ after, run? symbols (pushCell name) cpu = some after ∧ after.memory.Agrees next ∧
      256 ≤ (next.read 0).toNat := by
  rw [← agrees.read usable] at pushed
  obtain ⟨low, room, agrees, deep⟩ := room_of_push agrees deep pushed
  obtain ⟨after, ran, memory⟩ := run_pushCell known low room bound (usable_iff.mp usable).1
  exact ⟨after, ran, memory ▸ agrees, deep⟩

/-- The code that pushes the address of a name. -/
theorem pushAddress_pushes {name : String} {address : Word} {result : Unit}
    (bound : symbols[name]? = some address)
    (pushed : Effect.push address reference = some (result, next)) :
    ∃ after, run? symbols (pushAddress name) cpu = some after ∧ after.memory.Agrees next ∧
      256 ≤ (next.read 0).toNat := by
  obtain ⟨low, room, agrees, deep⟩ := room_of_push agrees deep pushed
  obtain ⟨after, ran, memory⟩ := run_pushAddress known low room bound
  exact ⟨after, ran, memory ▸ agrees, deep⟩

/-- The code of a unary operation. -/
theorem unary_operates {comp : Comp} {function : Word → Word} {result : Unit}
    (computes : ∀ inD inA inM, comp.eval inD inA inM = function inM)
    (operated : Effect.unary function reference = some (result, next)) :
    ∃ after, run? symbols (Template.unary comp) cpu = some after ∧ after.memory.Agrees next := by
  obtain ⟨room, rfl⟩ := unary_eq_some deep operated
  have top : cpu.memory.read 0 = reference.read 0 := agrees.read usable_zero
  obtain ⟨bound, -⟩ := usable_iff.mp room
  rw [← top] at bound
  refine ⟨_, run_unary known comp bound, ?_⟩
  simp only [computes]
  rw [top, agrees.read room]
  exact agrees.write room _

/-- The code of a binary operation. -/
theorem binary_operates {comp : Comp} {function : Word → Word → Word} {result : Unit}
    (computes : ∀ inD inA inM, comp.eval inD inA inM = function inM inD)
    (operated : Effect.binary function reference = some (result, next)) :
    ∃ after, run? symbols (Template.binary comp) cpu = some after ∧ after.memory.Agrees next := by
  obtain ⟨upper, lower, rfl⟩ := binary_eq_some deep operated
  have top : cpu.memory.read 0 = reference.read 0 := agrees.read usable_zero
  rw [← agrees.read upper, ← agrees.read lower]
  rw [← top] at deep upper lower ⊢
  obtain ⟨after, ran, memory⟩ := run_binary known (by bv_omega) (usable_iff.mp upper).1 comp (by bv_omega)
    (usable_iff.mp lower).1
  refine ⟨after, ran, ?_⟩
  rw [memory, computes]
  exact (agrees.write usable_zero _).write lower _

/-- The code that pushes a number. -/
theorem pushNumber_pushes {value : Word} {result : Unit}
    (pushed : Effect.push value reference = some (result, next)) :
    ∃ after, run? symbols (Template.push (.immediate value)) cpu = some after ∧ after.memory.Agrees next ∧
      256 ≤ (next.read 0).toNat := by
  obtain ⟨low, room, agrees, deep⟩ := room_of_push agrees deep pushed
  obtain ⟨after, ran, memory⟩ := run_pushNumber known low room value
  exact ⟨after, ran, memory ▸ agrees, deep⟩

/-- The code that pushes the word at an offset from a pointer. -/
theorem pushIndirect_pushes {base : Pointer} {offset address : Word} {result : Unit}
    (target : address = reference.read base.cell + offset) (usable : usable address = true)
    (pushed : Effect.push (reference.read address) reference = some (result, next)) :
    ∃ after, run? symbols (Template.push (.indirect base offset)) cpu = some after ∧ after.memory.Agrees next ∧
      256 ≤ (next.read 0).toNat := by
  rw [← agrees.read (usable_pointer base)] at target
  rw [← agrees.read usable] at pushed
  subst target
  obtain ⟨low, room, agrees, deep⟩ := room_of_push agrees deep pushed
  obtain ⟨after, ran, memory⟩ := run_pushIndirect known low room (usable_iff.mp usable).1
  exact ⟨after, ran, memory ▸ agrees, deep⟩

/-- The code that pops a word into D. -/
theorem popD_pops {value : Word} (popped : Effect.pop reference = some (value, next)) :
    ∃ after, run? symbols popD cpu = some after ∧ after.memory = cpu.memory.write 0 (cpu.memory.read 0 - 1) ∧
      after.memory.Agrees next ∧ after.d = value := by
  obtain ⟨low, room, -, same, agrees⟩ := room_of_pop agrees deep popped
  exact ⟨_, run_popD known low room, rfl, agrees, same⟩

/-- The code that pops a word into a named cell. -/
theorem popCell_pops {name : String} {address value : Word} {middle : Memory} {result : Unit}
    (bound : symbols[name]? = some address) (popped : Effect.pop reference = some (value, middle))
    (written : Effect.write address value middle = some (result, next)) :
    ∃ after, run? symbols (popCell name) cpu = some after ∧ after.memory.Agrees next := by
  obtain ⟨low, room, -, same, agrees⟩ := room_of_pop agrees deep popped
  obtain ⟨usable, rfl⟩ := write_eq_some_iff.mp written
  obtain ⟨after, ran, memory⟩ := run_popCell known low room bound (usable_iff.mp usable).1
  refine ⟨after, ran, ?_⟩
  rw [memory, same]
  exact agrees.write usable _

/-- The code that pops a word into the cell at an offset from a pointer. -/
theorem popIndirect_pops {base : Pointer} {offset address value : Word} {middle : Memory} {result : Unit}
    (target : address = reference.read base.cell + offset)
    (popped : Effect.pop reference = some (value, middle))
    (written : Effect.write address value middle = some (result, next)) :
    ∃ after, run? symbols (popIndirect base offset) cpu = some after ∧ after.memory.Agrees next := by
  obtain ⟨low, room, apart, same, shorter⟩ := room_of_pop agrees deep popped
  obtain ⟨usable, rfl⟩ := write_eq_some_iff.mp written
  rw [← agrees.read (usable_pointer base)] at target
  obtain ⟨after, ran, memory⟩ := run_popIndirect known low room target.symm (usable_iff.mp usable).1 apart
  refine ⟨after, ran, ?_⟩
  rw [memory, same, Memory.write_comm cpu.memory (show (13 : Word) ≠ 0 by decide)]
  exact (shorter.scratch (.inl rfl) address).write usable _

/-- The code in front of the jump of a call saves the frame and aims the pointers. -/
theorem call_saves {point : String} {returnAddress arguments : Word} {result : Unit}
    (bound : symbols[point]? = some returnAddress)
    (called : Effect.call returnAddress arguments reference = some (result, next)) :
    ∃ after, run? symbols (pushAddress point ++
        [Pointer.locals, .argument, .this, .that].flatMap (fun pointer => pushCell pointer.symbol) ++
        [symbol "SP", store .D (.read .m), number (arguments + frameSize), store .D (.dMinus .a),
         symbol "ARG", store .M .d, symbol "SP", store .D (.read .m), symbol "LCL", store .M .d]) cpu =
        some after ∧
      after.memory.Agrees next := by
  simp only [Effect.call, bind_eq_some_iff, read_eq_some_iff, write_eq_some_iff] at called
  obtain ⟨_, _, first, _, _, ⟨-, rfl, rfl⟩, _, _, second, _, _, ⟨-, rfl, rfl⟩, _, _, third, _, _,
    ⟨-, rfl, rfl⟩, _, _, fourth, _, _, ⟨-, rfl, rfl⟩, _, _, fifth, _, _, ⟨-, rfl, rfl⟩, _, _, ⟨-, rfl⟩, -,
    rfl⟩ := called
  have pushes := SymbolTable.known_pointer known
  obtain ⟨_, ran₁, agrees, deep⟩ := pushAddress_pushes known agrees deep bound first
  obtain ⟨_, ran₂, agrees, deep⟩ := pushCell_pushes known agrees deep (pushes .locals) rfl second
  obtain ⟨_, ran₃, agrees, deep⟩ := pushCell_pushes known agrees deep (pushes .argument) rfl third
  obtain ⟨_, ran₄, agrees, deep⟩ := pushCell_pushes known agrees deep (pushes .this) rfl fourth
  obtain ⟨saved, ran₅, agrees, deep⟩ := pushCell_pushes known agrees deep (pushes .that) rfl fifth
  obtain ⟨last, ran₆, memory⟩ := @run_aim _ known saved arguments
  refine ⟨last, ?_, ?_⟩
  · simp only [List.flatMap_cons, List.flatMap_nil, List.append_nil, run?_append, ran₁, ran₂, ran₃, ran₄, ran₅,
      Option.bind_some, ran₆]
  · rw [memory, agrees.read usable_zero]
    exact (agrees.write rfl _).write rfl _

end Stack

/-- The code that makes room for locals pushes zeros. -/
theorem zeros_push {count : Nat} {cpu : Cpu} {reference next : Memory} {result : Unit}
    (agrees : cpu.memory.Agrees reference) (deep : 256 ≤ (reference.read 0).toNat)
    (pushed : zeros count reference = some (result, next)) :
    ∃ after, run? symbols (List.replicate count
        [symbol "SP", store .M (.inc .m), store .A (.dec .m), store .M .zero]).flatten cpu = some after ∧
      after.memory.Agrees next := by
  induction count generalizing cpu reference with
  | zero =>
    cases pushed
    exact ⟨cpu, rfl, agrees⟩
  | succ count ih =>
    obtain ⟨_, middle, first, later⟩ := bind_eq_some_iff.mp pushed
    have computes : ∀ inA inM, Comp.zero.eval cpu.d inA inM = 0 := fun _ _ => rfl
    obtain ⟨between, ran, agrees, deep⟩ := push_pushes known agrees deep computes first
    obtain ⟨after, rest, agrees⟩ := ih agrees deep later
    refine ⟨after, ?_, agrees⟩
    rw [List.replicate_succ, List.flatten_cons, run?_append, ran, Option.bind_some, rest]

/-- The code that takes a pointer back walks one cell down the frame. -/
theorem restore_restores (pointer : Pointer) {frame value : Word} {reference middle next : Memory}
    {result : Unit} (agrees : cpu.memory.Agrees reference) (walking : cpu.memory.read 13 = frame)
    (fetched : Effect.read (frame - 1) reference = some (value, middle))
    (written : Effect.write pointer.cell value middle = some (result, next)) :
    ∃ after, run? symbols (restore pointer) cpu = some after ∧ after.memory.Agrees next ∧
      after.memory.read 13 = frame - 1 ∧ after.memory.read 14 = cpu.memory.read 14 := by
  obtain ⟨room, rfl, rfl⟩ := read_eq_some_iff.mp fetched
  obtain ⟨place, rfl⟩ := write_eq_some_iff.mp written
  subst walking
  obtain ⟨target, notFrame, notReturn⟩ := usable_iff.mp place
  obtain ⟨bound, other, -⟩ := usable_iff.mp room
  rw [restore, run?_symbol (SymbolTable.known_frame known), run?_store (fun _ => frame_bound),
    run?_store (fun _ => bound), run?_symbol (SymbolTable.known_pointer known pointer),
    run?_store (fun _ => target), run?]
  refine ⟨_, rfl, ?_, ?_, ?_⟩
  · simp only [Cpu.stored, Dest.M, Dest.AM, Dest.D, Bool.false_eq_true, ↓reduceIte, Comp.eval, Source.pick]
    rw [Memory.read_write_of_ne _ other, agrees.read room]
    exact (agrees.scratch (.inl rfl) _).write place _
  · simp only [Cpu.stored, Dest.M, Dest.AM, Dest.D, Bool.false_eq_true, ↓reduceIte, Comp.eval, Source.pick]
    rw [Memory.read_write_of_ne _ notFrame.symm, Memory.read_write_self _ frame_bound]
  · simp only [Cpu.stored, Dest.M, Dest.AM, Dest.D, Bool.false_eq_true, ↓reduceIte, Comp.eval, Source.pick]
    rw [Memory.read_write_of_ne _ notReturn.symm, Memory.read_write_of_ne _ (by decide)]

/-- The first part of a return keeps the frame and the return address in the scratch cells. -/
theorem ret_keeps {frame returnAddress : Word} (pointer : cpu.memory.read 1 = frame)
    (room : usable (frame - 5) = true) (saved : cpu.memory.read (frame - 5) = returnAddress) :
    ∃ after, run? symbols [symbol "LCL", store .D (.read .m), symbol "R13", store .M .d, number frameSize,
        store .A (.dMinus .a), store .D (.read .m), symbol "R14", store .M .d] cpu = some after ∧
      after.memory = (cpu.memory.write 13 frame).write 14 returnAddress := by
  obtain ⟨bound, other, -⟩ := usable_iff.mp room
  subst pointer saved
  have locals : symbols["LCL"]? = some 1 := SymbolTable.known_pointer known .locals
  rw [run?_symbol locals, run?_store (fun _ => pointer_bound .locals),
    run?_symbol (SymbolTable.known_frame known), run?_store (fun _ => frame_bound), run?_number,
    run?_register rfl, run?_store (fun _ => bound), run?_symbol (SymbolTable.known_returnAddress known),
    run?_store (fun _ => returnAddress_bound), run?]
  refine ⟨_, rfl, ?_⟩
  simp only [Cpu.stored, Dest.M, Dest.D, Dest.A, Bool.false_eq_true, ↓reduceIte, Comp.eval, Source.pick]
  rw [frameSize, Memory.read_write_of_ne _ other]

/-- The middle part of a return stores the result and shortens the stack. -/
theorem ret_hands {value argument : Word} {reference : Memory} (agrees : cpu.memory.Agrees reference)
    (inD : cpu.d = value) (pointer : reference.read 2 = argument) (room : usable argument = true) :
    ∃ after, run? symbols [symbol "ARG", store .A (.read .m), store .M .d, symbol "ARG", store .D (.inc .m),
        symbol "SP", store .M .d] cpu = some after ∧
      after.memory.Agrees
        ((reference.write argument value).write 0 ((reference.write argument value).read 2 + 1)) ∧
      after.memory.read 13 = cpu.memory.read 13 ∧ after.memory.read 14 = cpu.memory.read 14 := by
  have name : symbols["ARG"]? = some 2 := SymbolTable.known_pointer known .argument
  have place : usable 2 = true := rfl
  obtain ⟨bound, notFrame, notReturn⟩ := usable_iff.mp room
  subst inD pointer
  have stored := agrees.write room cpu.d
  rw [← agrees.read place] at room bound notFrame notReturn stored ⊢
  rw [run?_symbol name, run?_store (fun _ => pointer_bound .argument), run?_store (fun _ => bound),
    run?_symbol name, run?_store (fun _ => pointer_bound .argument), run?_symbol (SymbolTable.known_sp known),
    run?_store (fun _ => zero_bound), run?]
  refine ⟨_, rfl, ?_, ?_, ?_⟩
  · rw [← stored.read place]
    exact stored.write usable_zero _
  · simp only [Cpu.stored, Dest.M, Dest.D, Dest.A, Bool.false_eq_true, ↓reduceIte, Comp.eval, Source.pick]
    rw [Memory.read_write_of_ne _ (by decide), Memory.read_write_of_ne _ notFrame.symm]
  · simp only [Cpu.stored, Dest.M, Dest.D, Dest.A, Bool.false_eq_true, ↓reduceIte, Comp.eval, Source.pick]
    rw [Memory.read_write_of_ne _ (by decide), Memory.read_write_of_ne _ notReturn.symm]

/-- The code in front of the jump of a return hands the result over, takes the pointers back and keeps the
return address. -/
theorem ret_unwinds {reference next : Memory} {word : Word} (agrees : cpu.memory.Agrees reference)
    (deep : 256 ≤ (reference.read 0).toNat) (returned : Effect.ret reference = some (word, next)) :
    ∃ after, run? symbols ([symbol "LCL", store .D (.read .m), symbol "R13", store .M .d, number frameSize,
        store .A (.dMinus .a), store .D (.read .m), symbol "R14", store .M .d] ++ popD ++
        [symbol "ARG", store .A (.read .m), store .M .d, symbol "ARG", store .D (.inc .m), symbol "SP",
         store .M .d] ++ [Pointer.that, .this, .argument, .locals].flatMap restore) cpu = some after ∧
      after.memory.Agrees next ∧ after.memory.read 14 = word := by
  simp only [Effect.ret, bind_eq_some_iff] at returned
  obtain ⟨frame, _, frameRead, returnAddress, _, saved, value, popped, pop, argument, _, argumentRead, _, _,
    handed, again, _, againRead, _, shorter, shortened, _, _, thatRead, _, _, that, _, _, thisRead, _, _, this,
    _, _, argumentBack, _, _, restored, _, _, localsRead, _, _, locals, done⟩ := returned
  cases done
  obtain ⟨-, rfl, rfl⟩ := read_eq_some_iff.mp frameRead
  obtain ⟨frameRoom, rfl, rfl⟩ := read_eq_some_iff.mp saved
  obtain ⟨-, rfl, rfl⟩ := read_eq_some_iff.mp argumentRead
  obtain ⟨argumentRoom, rfl⟩ := write_eq_some_iff.mp handed
  obtain ⟨-, rfl, rfl⟩ := read_eq_some_iff.mp againRead
  obtain ⟨-, rfl⟩ := write_eq_some_iff.mp shortened
  -- R13 walks down the frame one cell at a time.
  rw [show reference.read 1 - 2 = reference.read 1 - 1 - 1 by bv_omega] at thisRead
  rw [show reference.read 1 - 3 = reference.read 1 - 1 - 1 - 1 by bv_omega] at argumentBack
  rw [show reference.read 1 - 4 = reference.read 1 - 1 - 1 - 1 - 1 by bv_omega] at localsRead
  obtain ⟨first, ran₁, kept⟩ := ret_keeps known (agrees.read (usable_pointer .locals)) frameRoom
    (agrees.read frameRoom)
  have agrees₁ : first.memory.Agrees reference := by
    rw [kept]
    exact (agrees.scratch (.inl rfl) _).scratch (.inr rfl) _
  obtain ⟨second, ran₂, memory, agrees₂, inD⟩ := popD_pops known agrees₁ deep pop
  have frame₂ : second.memory.read 13 = reference.read 1 := by
    rw [memory, Memory.read_write_of_ne _ (by decide), kept, Memory.read_write_of_ne _ (by decide),
      Memory.read_write_self _ frame_bound]
  have return₂ : second.memory.read 14 = reference.read (reference.read 1 - 5) := by
    rw [memory, Memory.read_write_of_ne _ (by decide), kept, Memory.read_write_self _ returnAddress_bound]
  obtain ⟨third, ran₃, agrees₃, frame₃, return₃⟩ := ret_hands known agrees₂ inD rfl argumentRoom
  rw [frame₂] at frame₃
  obtain ⟨fourth, ran₄, agrees₄, frame₄, return₄⟩ := restore_restores known .that agrees₃ frame₃ thatRead that
  obtain ⟨fifth, ran₅, agrees₅, frame₅, return₅⟩ := restore_restores known .this agrees₄ frame₄ thisRead this
  obtain ⟨sixth, ran₆, agrees₆, frame₆, return₆⟩ :=
    restore_restores known .argument agrees₅ frame₅ argumentBack restored
  obtain ⟨last, ran₇, agrees₇, -, return₇⟩ := restore_restores known .locals agrees₆ frame₆ localsRead locals
  refine ⟨last, ?_, agrees₇, by rw [return₇, return₆, return₅, return₄, return₃, return₂]⟩
  simp only [List.flatMap_cons, List.flatMap_nil, List.append_nil, run?_append, ran₁, ran₂, ran₃, ran₄, ran₅,
    ran₆, ran₇, Option.bind_some]

end Template

namespace Image.CodeAt

open Line Effect

variable {image : Image} {cpu : Cpu}

/-- The code of a jump leads to the address of its target. -/
theorem goto_reachesBelow {target : String} {word : Word} (code : image.CodeAt cpu.pc (Template.goto target))
    (bound : image.symbols[target]? = some word) :
    ∃ after, image.ReachesBelow (cpu.pc + 2) cpu after ∧ after.pc = word.toNat ∧ after.memory = cpu.memory := by
  obtain ⟨here, later⟩ := @codeAt_append image cpu.pc [symbol target] [jump .zero .always] |>.mp code
  obtain ⟨loaded, position⟩ := here.reachesBelow (run?_symbol bound [])
  have jumps := @jump_steps image .zero .always [] { cpu with a := word, pc := cpu.pc + 1 } later rfl rfl
  refine ⟨_, (loaded.mono ?_).tail ⟨?_, jumps⟩, rfl, rfl⟩
  · exact Nat.add_le_add_left (by decide : 1 ≤ 2) _
  · exact Nat.lt_succ_self _

theorem goto_reaches {target : String} {word : Word} (code : image.CodeAt cpu.pc (Template.goto target))
    (bound : image.symbols[target]? = some word) :
    ∃ after, image.Reaches cpu after ∧ after.pc = word.toNat ∧ after.memory = cpu.memory := by
  obtain ⟨after, reached, facts⟩ := code.goto_reachesBelow bound
  exact ⟨after, reached.reaches, facts⟩

/-- The branches of a comparison meet behind its second label with a truth value in D. -/
theorem branch_reaches {condition : Jump} {hit done : String}
    (code : image.CodeAt cpu.pc [symbol hit, jump .d condition, store .D .zero, symbol done, jump .zero .always,
      label hit, store .D .minusOne, label done]) :
    ∃ after, image.Reaches cpu after ∧ after.memory = cpu.memory ∧
      after.d = truth (condition.holds cpu.d) ∧ after.pc = cpu.pc + 6 := by
  obtain ⟨⟨hitWord, hitBound, hitAddress⟩, atHit⟩ := code.2.2.2.2.2
  obtain ⟨⟨doneWord, doneBound, doneAddress⟩, -⟩ := atHit.2
  obtain ⟨loaded, branching⟩ := @advance image [symbol hit] _ _ _ code (run?_symbol hitBound [])
  cases holds : condition.holds cpu.d with
  | true =>
    rw [← hitAddress] at atHit
    obtain ⟨stored, -⟩ := @reaches image [store .D .minusOne] { cpu with a := hitWord, pc := hitWord.toNat } _
      ⟨atHit.1, trivial⟩ (run?_register rfl [])
    refine ⟨_, loaded.trans ((branching.jump_taken rfl holds).trans stored), rfl, rfl, ?_⟩
    simp only [Cpu.stored, hitAddress]
  | false =>
    obtain ⟨stored, joining⟩ := @advance image [store .D .zero, symbol done] _
      { cpu with a := hitWord, pc := cpu.pc + 1 + 1 } _ branching.2
      ((run?_register rfl _).trans (run?_symbol doneBound []))
    refine ⟨_, loaded.trans ((branching.jump_past rfl holds).trans (stored.trans (joining.jump_taken rfl rfl))),
      rfl, rfl, ?_⟩
    simp only [doneAddress]

/-- A line that refers to a name stands in an image only if the name has an address. -/
theorem symbol_bound {address : Nat} {name : String} {rest : List Line}
    (code : image.CodeAt address (symbol name :: rest)) : ∃ word, image.symbols[name]? = some word := by
  obtain ⟨⟨instruction, resolved, -⟩, -⟩ := code
  obtain ⟨word, bound, -⟩ := Option.map_eq_some_iff.mp resolved
  exact ⟨word, bound⟩

/-- The target of a conditional jump has an address. -/
theorem ifGoto_bound {address : Nat} {target : String} (code : image.CodeAt address (Template.ifGoto target)) :
    ∃ word, image.symbols[target]? = some word :=
  symbol_bound (codeAt_append.mp code).2

/-- The return label of a call stands behind its code. -/
theorem returnPoint_bound {address : Nat} {name point : String} {arguments : Word}
    (code : image.CodeAt address (Template.call name arguments point)) :
    ∃ word, image.symbols[point]? = some word ∧
      word.toNat = address + Line.size (Template.call name arguments point) := by
  obtain ⟨-, ⟨word, bound, place⟩, -⟩ := codeAt_append.mp code
  exact ⟨word, bound, place⟩

variable (known : image.symbols.Extends Image.predefined)

section Exact

variable (low : cpu.memory.read 0 - 1 ≠ 0) (room : (cpu.memory.read 0 - 1).toNat < memorySize)

include known low room

/-- The code of a conditional jump leads to the address of its target unless the word that it pops is
zero. -/
theorem ifGoto_leads {target : String} {word : Word} (code : image.CodeAt cpu.pc (Template.ifGoto target))
    (bound : image.symbols[target]? = some word) :
    ∃ after, image.Reaches cpu after ∧ after.memory = cpu.memory.write 0 (cpu.memory.read 0 - 1) ∧
      after.pc = if cpu.memory.read (cpu.memory.read 0 - 1) = 0 then cpu.pc + Line.size (Template.ifGoto target)
        else word.toNat := by
  obtain ⟨first, code⟩ := code.advance (Template.run_popD known low room)
  obtain ⟨second, code⟩ := @advance image [symbol target] _ _ _ code (run?_symbol bound [])
  generalize popped : cpu.memory.read (cpu.memory.read 0 - 1) = value at first second code
  have zero : value.toInt = 0 ↔ value = 0 := BitVec.toInt_inj (y := 0)
  by_cases empty : value = 0
  · have fails : Jump.ne.holds value = false := by simp [Jump.holds, empty]
    refine ⟨_, first.trans (second.trans (code.jump_past rfl fails)), rfl, ?_⟩
    rw [if_pos empty]
    rfl
  · have holds : Jump.ne.holds value = true := by simpa [Jump.holds, zero] using empty
    refine ⟨_, first.trans (second.trans (code.jump_taken rfl holds)), rfl, ?_⟩
    rw [if_neg empty]

/-- The code of a comparison replaces the two topmost words by a truth value, whichever way it takes. -/
theorem comparison_leads {condition : Jump} {hit done : String} (lower : cpu.memory.read 0 - 1 - 1 ≠ 0)
    (inside : (cpu.memory.read 0 - 1 - 1).toNat < memorySize)
    (code : image.CodeAt cpu.pc (Template.comparison condition hit done)) :
    ∃ after, image.Reaches cpu after ∧
      after.memory = (cpu.memory.write 0 (cpu.memory.read 0 - 1)).write (cpu.memory.read 0 - 1 - 1)
        (truth (condition.holds
          (cpu.memory.read (cpu.memory.read 0 - 1 - 1) - cpu.memory.read (cpu.memory.read 0 - 1)))) ∧
      after.pc = cpu.pc + Line.size (Template.comparison condition hit done) := by
  obtain ⟨middle, ran, memory, inD, position⟩ := Template.run_difference known low room lower inside
  obtain ⟨reached, code⟩ := @advance image _ _ _ _ (by exact code) ran
  obtain ⟨branch, last⟩ := @codeAt_append image middle.pc [symbol hit, jump .d condition, store .D .zero,
    symbol done, jump .zero .always, label hit, store .D .minusOne, label done] (Template.unary .d) |>.mp code
  obtain ⟨joined, branched, same, truthful, place⟩ := branch.branch_reaches
  have pointer : joined.memory.read 0 = cpu.memory.read 0 - 1 := by
    rw [same, memory, Memory.read_write_self _ zero_bound]
  obtain ⟨settled, behind⟩ := @reaches image _ joined _ (by rw [place]; exact last)
    (Template.run_unary known .d (by rw [pointer]; exact inside))
  refine ⟨_, reached.trans (branched.trans settled), ?_, ?_⟩
  · simp only [Comp.eval, truthful, inD]
    rw [pointer, same, memory]
  · rw [behind, place, position]
    rfl

end Exact

variable {reference next : Memory} (agrees : cpu.memory.Agrees reference) (deep : 256 ≤ (reference.read 0).toNat)

include known agrees deep

theorem ifGoto_reaches {target : String} {word value : Word}
    (code : image.CodeAt cpu.pc (Template.ifGoto target)) (bound : image.symbols[target]? = some word)
    (popped : Effect.pop reference = some (value, next)) :
    image.Arrives cpu (if value = 0 then cpu.pc + Line.size (Template.ifGoto target) else word.toNat) next := by
  obtain ⟨low, room, -, same, agrees⟩ := Template.room_of_pop agrees deep popped
  obtain ⟨after, reached, memory, place⟩ := code.ifGoto_leads known low room bound
  rw [same] at place
  exact ⟨after, reached, memory ▸ agrees, place⟩

theorem comparison_reaches {condition : Jump} {hit done : String} {result : Unit}
    (code : image.CodeAt cpu.pc (Template.comparison condition hit done))
    (compared : Effect.binary (fun lower upper => truth (condition.holds (lower - upper))) reference =
      some (result, next)) :
    image.Arrives cpu (cpu.pc + Line.size (Template.comparison condition hit done)) next := by
  obtain ⟨upper, lower, rfl⟩ := binary_eq_some deep compared
  have top : cpu.memory.read 0 = reference.read 0 := agrees.read usable_zero
  rw [← agrees.read upper, ← agrees.read lower]
  rw [← top] at deep upper lower ⊢
  obtain ⟨after, reached, memory, place⟩ := code.comparison_leads known (by bv_omega) (usable_iff.mp upper).1
    (by bv_omega) (usable_iff.mp lower).1
  refine ⟨after, reached, ?_, place⟩
  rw [memory]
  exact (agrees.write usable_zero _).write lower _

/-- The code of a call saves the frame and leads to the callee. -/
theorem call_reaches {name point : String} {arguments returnAddress target : Word} {result : Unit}
    (code : image.CodeAt cpu.pc (Template.call name arguments point))
    (callee : image.symbols[name]? = some target) (behind : image.symbols[point]? = some returnAddress)
    (called : Effect.call returnAddress arguments reference = some (result, next)) :
    image.Arrives cpu target.toNat next := by
  obtain ⟨middle, ran, agrees⟩ := Template.call_saves known agrees deep behind called
  obtain ⟨body, -⟩ := codeAt_append.mp code
  obtain ⟨first, jump⟩ := body.advance ran
  obtain ⟨after, second, position, memory⟩ := jump.goto_reaches callee
  exact ⟨after, first.trans second, by rwa [memory], position⟩

/-- The code of a return hands the result over, takes the pointers back and leads to the return address. -/
theorem ret_reaches {word : Word} (code : image.CodeAt cpu.pc Template.ret)
    (returned : Effect.ret reference = some (word, next)) :
    image.Arrives cpu word.toNat next := by
  obtain ⟨last, ran, agrees, kept⟩ := Template.ret_unwinds known agrees deep returned
  obtain ⟨reached, returning⟩ := @advance image _ [symbol "R14", store .A (.read .m), jump .zero .always]
    cpu last code ran
  obtain ⟨loaded, jumping⟩ := @advance image [symbol "R14", store .A (.read .m)] _ last _ returning
    ((run?_symbol (SymbolTable.known_returnAddress known) _).trans
      (run?_store (fun _ => returnAddress_bound) []))
  refine ⟨_, reached.trans (loaded.trans (jumping.jump_taken rfl rfl)), agrees, ?_⟩
  rw [← kept]
  rfl

end Image.CodeAt

end HackVM
