import HackVM.Proofs.Comparisons

/-! # Stack effects and frames

Every command but a call or a return takes a number of words from the stack and leaves a number of words in
their place. Its code goes on at the next command or at the label that it jumps to, and changes no other cell,
but for the target of a pop and the scratch cell in which some pops keep the address of their target. Operands,
registers and scratch cells may hold anything at the start.
-/

namespace HackVM

/-- How many words a command takes from the stack, and how many it leaves in their place. Calls and returns
move whole frames instead. -/
def Command.stackEffect? : Command → Option (Word × Word)
  | arithmetic .neg | arithmetic .not => some (1, 1)
  | arithmetic _ => some (2, 1)
  | push _ _ => some (0, 1)
  | pop _ _ | ifGoto _ => some (1, 0)
  | label _ | goto _ => some (0, 0)
  | function _ locals => some (0, locals)
  | call _ _ | ret => none

namespace Site

/-- The label at which the machine goes on behind a command, if not at the next one. -/
def jump? (site : Site) (memory : Memory) : Option String :=
  match site.command with
  | .goto name => some (site.labelName name)
  | .ifGoto name => if memory.read (memory.read 0 - 1) = 0 then none else some (site.labelName name)
  | _ => none

/-- The scratch cell in which a pop keeps the address of a target that it computes from a pointer. -/
def scratch (site : Site) : List Word :=
  match site.command with
  | .pop .locals _ | .pop .argument _ | .pop .this _ | .pop .that _ => [13]
  | _ => []

end Site

namespace StackMachine

/-- The cell that a push reads or a pop writes. -/
def operand? (machine : StackMachine) (site : Site) (memory : Memory) : Option Word :=
  match site.command with
  | .push segment index | .pop segment index => (machine.cell site.unit segment index).run' memory
  | _ => none

/-- The cells outside the stack that a command changes, the stack pointer apart. -/
def changed (machine : StackMachine) (site : Site) (memory : Memory) : List Word :=
  match site.command with
  | .pop _ _ => (machine.operand? site memory).toList ++ site.scratch
  | _ => []

/-- What a command leaves in the cells that it makes room for or pops into. -/
def Leaves (machine : StackMachine) (site : Site) (before after : Memory) : Prop :=
  match site.command with
  | .function _ locals => ∀ offset < locals, after.read (before.read 0 + offset) = 0
  | .pop _ _ => ∀ address ∈ machine.operand? site before, after.read address = before.read (before.read 0 - 1)
  | _ => True

end StackMachine

namespace Memory

/-- The memory with words put on the stack one after the other. -/
def pushedAll (memory : Memory) (values : List Word) : Memory := values.foldl pushed memory

theorem pushedAll_cons (memory : Memory) (value : Word) (values : List Word) :
    memory.pushedAll (value :: values) = (memory.pushed value).pushedAll values := rfl

/-- The cells of the stack that are taken or left lie in the room of the stack. -/
def StackRoom (memory : Memory) (taken left : Word) : Prop :=
  ∀ offset, offset < taken ∨ offset < left →
    256 ≤ (memory.read 0 - taken + offset).toNat ∧ (memory.read 0 - taken + offset).toNat ≤ 32767

/-- Words were taken from the stack and others left in their place. No cell differs but these, the stack
pointer and some others. -/
structure StackLaw (before after : Memory) (taken left : Word) (others : List Word) : Prop where
  stack : after.read 0 = before.read 0 - taken + left
  frame : ∀ address, address ≠ 0 → (∀ offset < left, address ≠ before.read 0 - taken + offset) →
    address ∉ others → after.read address = before.read address

namespace StackLaw

variable {before after : Memory} {taken left : Word} {others : List Word}

/-- As many words are left as were taken. -/
theorem same (memory : Memory) (count : Word) (others : List Word) :
    memory.StackLaw memory count count others :=
  ⟨(BitVec.sub_add_cancel _ _).symm, fun _ _ _ _ => rfl⟩

/-- The stack pointer moves. -/
theorem move {memory : Memory} {target : Word} (moved : target = memory.read 0 - taken + left)
    (others : List Word) : memory.StackLaw (memory.write 0 target) taken left others := by
  refine ⟨?_, fun address other _ _ => read_write_of_ne _ other _⟩
  rw [read_write_self _ Effect.zero_bound, moved]

/-- A cell that is left on the stack is written. -/
theorem write_left (law : before.StackLaw after taken left others) {address : Word} (offset : Word)
    (cell : address = before.read 0 - taken + offset) (within : offset < left) (nonzero : address ≠ 0)
    (value : Word) : before.StackLaw (after.write address value) taken left others := by
  refine ⟨by rw [read_write_of_ne _ nonzero.symm, law.stack], fun query other apart outside => ?_⟩
  rw [read_write_of_ne _ (cell ▸ apart offset within), law.frame query other apart outside]

/-- One of the other cells is written. -/
theorem write_other (law : before.StackLaw after taken left others) {address : Word} (listed : address ∈ others)
    (nonzero : address ≠ 0) (value : Word) :
    before.StackLaw (after.write address value) taken left others := by
  refine ⟨by rw [read_write_of_ne _ nonzero.symm, law.stack], fun query other apart outside => ?_⟩
  rw [read_write_of_ne, law.frame query other apart outside]
  rintro rfl
  exact outside listed

/-- A word is pushed. -/
theorem pushed {memory : Memory} (low : memory.read 0 ≠ 0) (value : Word) (others : List Word) :
    memory.StackLaw (memory.pushed value) 0 1 others := by
  rw [Memory.pushed, write_comm _ low]
  exact (move (by bv_omega) others).write_left 0 (by bv_omega) (by decide) low value

/-- A word is pushed before others. -/
theorem push_cons {memory : Memory} {value count : Word} (first : memory.StackLaw (memory.pushed value) 0 1 others)
    (later : (memory.pushed value).StackLaw after 0 count others) (room : (count + 1).toNat = count.toNat + 1) :
    memory.StackLaw after 0 (count + 1) others := by
  refine ⟨?_, fun address nonzero apart outside => ?_⟩
  · rw [later.stack, first.stack]
    bv_omega
  · rw [later.frame address nonzero ?_ outside, first.frame address nonzero ?_ outside]
    · intro offset small
      exact apart offset (by bv_omega)
    · intro offset small
      have shifted := apart (offset + 1) (by bv_omega)
      rw [first.stack]
      bv_omega

/-- Words that are pushed one after the other are left on the stack in this order. -/
theorem pushedAll {memory : Memory} {values : List Word} (room : ∀ index < values.length,
      256 ≤ (memory.read 0).toNat + index ∧ (memory.read 0).toNat + index ≤ 32767) :
    memory.StackLaw (memory.pushedAll values) 0 (BitVec.ofNat 16 values.length) [] ∧
      ∀ index value, values[index]? = some value →
        (memory.pushedAll values).read (memory.read 0 + BitVec.ofNat 16 index) = value := by
  induction values generalizing memory with
  | nil => exact ⟨same _ 0 [], nofun⟩
  | cons first rest ih =>
    rw [List.length_cons] at room ⊢
    have bottom := room 0 (by omega)
    have top := room rest.length (by omega)
    have low : memory.read 0 ≠ 0 := Effect.ne_of_deep bottom.1 (by decide)
    have head := pushed low first []
    have stack := memory.stack_pushed first
    obtain ⟨later, cells⟩ := @ih (memory.pushed first) (fun index small => by
      have := room (index + 1) (by omega)
      rw [stack]
      bv_omega)
    refine ⟨?_, fun index value found => ?_⟩
    · rw [BitVec.ofNat_add]
      exact head.push_cons later (by bv_omega)
    cases index with
    | zero =>
      -- The words above do not reach down to the first one.
      cases found
      have cell : memory.read 0 + BitVec.ofNat 16 0 = memory.read 0 := by bv_omega
      have kept := later.frame (memory.read 0) low (fun _ _ => by rw [stack]; bv_omega) List.not_mem_nil
      rw [cell]
      refine kept.trans ?_
      rw [Memory.pushed, read_write_of_ne _ low, read_write_self _ (Nat.lt_succ_of_le bottom.2)]
    | succ index =>
      have above := cells index value found
      have cell : memory.read 0 + 1 + BitVec.ofNat 16 index = memory.read 0 + BitVec.ofNat 16 (index + 1) := by
        bv_omega
      rwa [stack, cell] at above

end StackLaw

end Memory

/-- The code that makes room for locals pushes zeros. -/
theorem Template.run_zeros {symbols : SymbolTable} (known : symbols.Extends Image.predefined) {count : Nat}
    {cpu : Cpu} (room : ∀ index < count,
      256 ≤ (cpu.memory.read 0).toNat + index ∧ (cpu.memory.read 0).toNat + index ≤ 32767) :
    ∃ after, Line.run? symbols (List.replicate count
        [.symbol "SP", .store .M (.inc .m), .store .A (.dec .m), .store .M .zero]).flatten cpu = some after ∧
      after.memory = cpu.memory.pushedAll (List.replicate count 0) := by
  induction count generalizing cpu with
  | zero => exact ⟨cpu, rfl, rfl⟩
  | succ count ih =>
    have start := room 0 (by omega)
    have low : cpu.memory.read 0 ≠ 0 := Effect.ne_of_deep start.1 (by decide)
    have ran := @Template.run_push _ known cpu .zero 0 (fun _ _ => rfl) low (Nat.lt_succ_of_le start.2)
    have stack := cpu.memory.stack_pushed 0
    obtain ⟨after, rest, memory⟩ := @ih { cpu with
      memory := cpu.memory.pushed 0
      a := cpu.memory.read 0
      pc := cpu.pc + 4 } (fun index small => by
        have := room (index + 1) (by omega)
        rw [stack]
        bv_omega)
    refine ⟨after, ?_, memory⟩
    rw [List.replicate_succ, List.flatten_cons, Line.run?_append, ran, Option.bind_some, rest]

namespace StackMachine

variable {machine : StackMachine} {image : Image} (loaded : machine.Loaded image) {position : Nat} {site : Site}
  (here : machine.sites[position]? = some site)

include loaded here

/-- The cell of a push or a pop exists. -/
theorem Loaded.exists_cell {segment : Segment} {index : Word} (cells : segment ≠ .constant)
    (command : site.command = .push segment index ∨ site.command = .pop segment index) (memory : Memory) :
    ∃ address, machine.cell site.unit segment index memory = some (address, memory) ∧
      machine.operand? site memory = some address := by
  have found : ∃ address, machine.cell site.unit segment index memory = some (address, memory) := by
    cases segment with
    | constant => contradiction
    | static =>
      have code := loaded.codeAt here
      have bound : ∃ word, image.symbols[staticSymbol site.unit index]? = some word := by
        rcases command with pushes | pops
        · rw [Site.code, pushes] at code
          exact Image.CodeAt.symbol_bound code
        · rw [Site.code, pops] at code
          exact Image.CodeAt.symbol_bound (Image.codeAt_append.mp code).2
      obtain ⟨word, bound⟩ := bound
      exact ⟨word, Effect.ofOption_eq_some_iff.mpr ⟨(loaded.statics _).trans bound, rfl⟩⟩
    | locals => exact ⟨memory.read 1 + index, rfl⟩
    | argument => exact ⟨memory.read 2 + index, rfl⟩
    | this => exact ⟨memory.read 3 + index, rfl⟩
    | that => exact ⟨memory.read 4 + index, rfl⟩
    | pointer => exact ⟨3 + index, rfl⟩
    | temp => exact ⟨5 + index, rfl⟩
  obtain ⟨address, found⟩ := found
  refine ⟨address, found, ?_⟩
  rcases command with command | command <;> simp [operand?, command, StateT.run', found]

/-- The code of a push runs through and pushes some word. -/
theorem Loaded.push_runs {segment : Segment} {index : Word} (command : site.command = .push segment index)
    {cpu : Cpu} (low : cpu.memory.read 0 ≠ 0) (room : (cpu.memory.read 0).toNat < memorySize)
    (inside : ∀ address ∈ machine.operand? site cpu.memory, address.toNat ≤ 32767) :
    ∃ after value, Line.run? image.symbols site.code cpu = some after ∧
      after.memory = cpu.memory.pushed value := by
  have known := loaded.holds.predefined
  have admitted : (Command.push segment index).Admitted :=
    command ▸ loaded.admitted site (List.mem_of_getElem? here)
  simp only [Site.code, command]
  by_cases constant : segment = .constant
  · subst constant
    obtain ⟨after, ran, memory⟩ := Template.run_pushNumber known low room index
    exact ⟨after, _, ran, memory⟩
  · obtain ⟨address, found, operand⟩ := loaded.exists_cell here constant (.inl command) cpu.memory
    have target := Nat.lt_succ_of_le (inside address operand)
    obtain ⟨-, ⟨base, place, rfl⟩ | ⟨name, place, bound⟩⟩ := loaded.cell_cases admitted found
    · obtain ⟨after, ran, memory⟩ := Template.run_pushIndirect known low room target
      exact ⟨after, _, by rwa [place], memory⟩
    · obtain ⟨after, ran, memory⟩ := Template.run_pushCell known low room bound target
      exact ⟨after, _, by rwa [place], memory⟩

/-- The code of a pop runs through. It writes the target last, when the law holds already. -/
theorem Loaded.pop_runs {segment : Segment} {index : Word} (command : site.command = .pop segment index)
    {cpu : Cpu} (deep : 256 ≤ (cpu.memory.read 0 - 1).toNat) (room : (cpu.memory.read 0 - 1).toNat < memorySize)
    {address : Word} (found : machine.cell site.unit segment index cpu.memory = some (address, cpu.memory))
    (target : address.toNat < memorySize) :
    ∃ after memory, Line.run? image.symbols site.code cpu = some after ∧
      after.memory = Memory.write memory address (cpu.memory.read (cpu.memory.read 0 - 1)) ∧
      cpu.memory.StackLaw memory 1 0 (machine.changed site cpu.memory) := by
  have known := loaded.holds.predefined
  obtain ⟨-, admitted⟩ : (Command.pop segment index).Admitted :=
    command ▸ loaded.admitted site (List.mem_of_getElem? here)
  have low : cpu.memory.read 0 - 1 ≠ 0 := Effect.ne_of_deep deep (by decide)
  have code : site.code = Site.popInto (segment.place site.unit index) := by rw [Site.code, command]
  have moved := @Memory.StackLaw.move 1 0 cpu.memory (cpu.memory.read 0 - 1) (by bv_omega)
    (machine.changed site cpu.memory)
  obtain ⟨-, ⟨base, place, aimed⟩ | ⟨name, place, bound⟩⟩ := loaded.cell_cases admitted found
  · obtain ⟨after, ran, memory⟩ := Template.run_popIndirect known low room aimed.symm target
      (Effect.ne_of_deep deep (by decide))
    rw [Memory.write_comm cpu.memory (show (13 : Word) ≠ 0 by decide)] at memory
    have kept : 13 ∈ machine.changed site cpu.memory := by
      cases segment <;> first | contradiction | simp [changed, Site.scratch, command]
    exact ⟨after, _, by rwa [code, place], memory, moved.write_other kept (by decide) address⟩
  · obtain ⟨after, ran, memory⟩ := Template.run_popCell known low room bound target
    exact ⟨after, _, by rwa [code, place], memory, moved⟩

variable {cpu : Cpu} (located : cpu.pc = machine.address position)

include located

/-- The law for operators. -/
theorem Loaded.arithmetic_law {operator : Operator} (command : site.command = .arithmetic operator)
    {taken left : Word} (effect : site.command.stackEffect? = some (taken, left))
    (room : cpu.memory.StackRoom taken left) :
    ∃ after, image.Reaches cpu after ∧ after.pc = machine.address (position + 1) ∧
      cpu.memory.StackLaw after.memory taken left [] := by
  have known := loaded.holds.predefined
  have leads := @Loaded.run_leads _ _ loaded _ _ here _ located
  have size : memorySize = 32768 := rfl
  simp only [Site.code, command] at leads
  rw [command] at effect
  cases operator with
  | neg | not =>
    cases effect
    have top := room 0 (by decide)
    obtain ⟨reached, arrived⟩ := leads (Template.run_unary known _ (by bv_omega))
    refine ⟨_, reached, arrived, ?_⟩
    exact (Memory.StackLaw.same _ 1 []).write_left 0 (by bv_omega) (by decide) (by bv_omega) _
  | add | sub | and | or =>
    cases effect
    have lower := room 0 (by decide)
    have upper := room 1 (by decide)
    obtain ⟨after, ran, memory⟩ := @Template.run_binary _ known cpu (by bv_omega) (by bv_omega) _
      (by bv_omega) (by bv_omega)
    obtain ⟨reached, arrived⟩ := leads ran
    refine ⟨after, reached, arrived, ?_⟩
    rw [memory]
    exact (Memory.StackLaw.move (by bv_omega) []).write_left 0 (by bv_omega) (by decide) (by bv_omega) _
  | eq | gt | lt =>
    cases effect
    have lower := room 0 (by decide)
    have upper := room 1 (by decide)
    obtain ⟨after, reached, arrived, memory⟩ := loaded.comparison_answers here located command rfl (by bv_omega)
      (by bv_omega)
    refine ⟨after, reached, arrived, ?_⟩
    rw [memory]
    exact (Memory.StackLaw.move (by bv_omega) []).write_left 0 (by bv_omega) (by decide) (by bv_omega) _

/-- The law for pushes. -/
theorem Loaded.push_law {segment : Segment} {index : Word} (command : site.command = .push segment index)
    (room : cpu.memory.StackRoom 0 1)
    (inside : ∀ address ∈ machine.operand? site cpu.memory, address.toNat ≤ 32767) :
    ∃ after, image.Reaches cpu after ∧ after.pc = machine.address (position + 1) ∧
      cpu.memory.StackLaw after.memory 0 1 [] := by
  obtain ⟨deep, high⟩ := room 0 (by decide)
  have low : cpu.memory.read 0 ≠ 0 := by bv_omega
  have size : memorySize = 32768 := rfl
  obtain ⟨after, value, ran, memory⟩ := loaded.push_runs here command low (by bv_omega) inside
  obtain ⟨reached, arrived⟩ := loaded.run_leads here located ran
  exact ⟨after, reached, arrived, memory ▸ .pushed low value []⟩

/-- The law for pops. -/
theorem Loaded.pop_law {segment : Segment} {index : Word} (command : site.command = .pop segment index)
    (room : cpu.memory.StackRoom 1 0)
    (inside : ∀ address ∈ machine.operand? site cpu.memory, address ≠ 0 ∧ address.toNat ≤ 32767) :
    ∃ after, image.Reaches cpu after ∧ after.pc = machine.address (position + 1) ∧
      cpu.memory.StackLaw after.memory 1 0 (machine.changed site cpu.memory) ∧
      machine.Leaves site cpu.memory after.memory := by
  obtain ⟨cells, -⟩ : (Command.pop segment index).Admitted :=
    command ▸ loaded.admitted site (List.mem_of_getElem? here)
  obtain ⟨address, found, operand⟩ := loaded.exists_cell here cells (.inr command) cpu.memory
  obtain ⟨nonzero, small⟩ := inside address operand
  have target := Nat.lt_succ_of_le small
  obtain ⟨deep, high⟩ := room 0 (by decide)
  have size : memorySize = 32768 := rfl
  obtain ⟨after, memory, ran, written, law⟩ :=
    loaded.pop_runs here command (by bv_omega) (by bv_omega) found target
  obtain ⟨reached, arrived⟩ := loaded.run_leads here located ran
  have listed : address ∈ machine.changed site cpu.memory := by simp [changed, command, operand]
  refine ⟨after, reached, arrived, written ▸ law.write_other listed nonzero _, ?_⟩
  simp only [Leaves, command, operand]
  rintro _ ⟨⟩
  rw [written, Memory.read_write_self _ target]

/-- The law for the entries of functions. -/
theorem Loaded.function_law {name : String} {locals : Word} (command : site.command = .function name locals)
    (room : cpu.memory.StackRoom 0 locals) :
    ∃ after, image.Reaches cpu after ∧ after.pc = machine.address (position + 1) ∧
      cpu.memory.StackLaw after.memory 0 locals [] ∧ machine.Leaves site cpu.memory after.memory := by
  have leads := @Loaded.run_leads _ _ loaded _ _ here _ located
  simp only [Site.code, command] at leads
  have places : ∀ index < locals.toNat,
      256 ≤ (cpu.memory.read 0).toNat + index ∧ (cpu.memory.read 0).toNat + index ≤ 32767 := by
    intro index small
    have bottom := room 0 (.inr (by bv_omega))
    -- If the stack left its room, some cell would be the first beyond it.
    by_contra outside
    have beyond := room (32768 - cpu.memory.read 0) (.inr (by bv_omega))
    bv_omega
  obtain ⟨after, ran, memory⟩ := Template.run_zeros loaded.holds.predefined places
  obtain ⟨reached, arrived⟩ := leads ran
  obtain ⟨law, zeros⟩ := @Memory.StackLaw.pushedAll cpu.memory (List.replicate locals.toNat 0)
    (by rwa [List.length_replicate])
  rw [List.length_replicate, BitVec.ofNat_toNat, BitVec.setWidth_eq, ← memory] at law
  refine ⟨after, reached, arrived, law, ?_⟩
  simp only [Leaves, command]
  intro offset small
  have cell := zeros offset.toNat 0 (by rw [List.getElem?_replicate, if_pos (BitVec.lt_def.mp small)])
  rwa [BitVec.ofNat_toNat, BitVec.setWidth_eq, ← memory] at cell

/-- The law for conditional jumps. -/
theorem Loaded.ifGoto_law {name : String} (command : site.command = .ifGoto name)
    (room : cpu.memory.StackRoom 1 0) :
    ∃ after, image.Reaches cpu after ∧
      (site.jump? cpu.memory = none → after.pc = machine.address (position + 1)) ∧
      (∀ label word, site.jump? cpu.memory = some label → image.symbols[label]? = some word →
        after.pc = word.toNat) ∧
      cpu.memory.StackLaw after.memory 1 0 [] := by
  have code := loaded.codeAt here
  have size := address_succ here
  simp only [Site.code, command] at code size
  rw [← located] at code size
  obtain ⟨deep, high⟩ := room 0 (by decide)
  have memory : memorySize = 32768 := rfl
  obtain ⟨target, bound⟩ := code.ifGoto_bound
  obtain ⟨after, reached, moved, place⟩ :=
    code.ifGoto_leads loaded.holds.predefined (by bv_omega) (by bv_omega) bound
  simp only [Site.jump?, command]
  refine ⟨after, reached, ?_, ?_, moved ▸ .move (by bv_omega) []⟩
  · intro stays
    split_ifs at stays with zero
    rw [place, if_pos zero, size]
  · intro label word jumps known
    split_ifs at jumps with zero
    cases jumps
    cases bound.symm.trans known
    rw [place, if_neg zero]

/-- The law for all commands but calls and returns, a label being where the image has it. -/
theorem Loaded.command_law {taken left : Word} (effect : site.command.stackEffect? = some (taken, left))
    (room : cpu.memory.StackRoom taken left)
    (inside : ∀ address ∈ machine.operand? site cpu.memory, address ≠ 0 ∧ address.toNat ≤ 32767) :
    ∃ after, image.Reaches cpu after ∧
      (site.jump? cpu.memory = none → after.pc = machine.address (position + 1)) ∧
      (∀ label word, site.jump? cpu.memory = some label → image.symbols[label]? = some word →
        after.pc = word.toNat) ∧
      cpu.memory.StackLaw after.memory taken left (machine.changed site cpu.memory) ∧
      machine.Leaves site cpu.memory after.memory := by
  have code := loaded.codeAt here
  have leads := @Loaded.run_leads _ _ loaded _ _ here _ located
  simp only [Site.code] at code leads
  rw [← located] at code
  cases command : site.command with
  | arithmetic operator =>
    obtain ⟨after, reached, arrived, law⟩ := loaded.arithmetic_law here located command effect room
    simp only [Site.jump?, changed, Leaves, command]
    exact ⟨after, reached, fun _ => arrived, fun _ _ jumps => by contradiction, law, trivial⟩
  | push segment index =>
    rw [command] at effect
    cases effect
    obtain ⟨after, reached, arrived, law⟩ := loaded.push_law here located command room
      (fun address operand => (inside address operand).2)
    simp only [Site.jump?, changed, Leaves, command]
    exact ⟨after, reached, fun _ => arrived, fun _ _ jumps => by contradiction, law, trivial⟩
  | pop segment index =>
    rw [command] at effect
    cases effect
    obtain ⟨after, reached, arrived, facts⟩ := loaded.pop_law here located command room inside
    simp only [Site.jump?, command]
    exact ⟨after, reached, fun _ => arrived, fun _ _ jumps => by contradiction, facts⟩
  | label name =>
    rw [command] at effect leads
    cases effect
    obtain ⟨reached, arrived⟩ := leads rfl
    simp only [Site.jump?, changed, Leaves, command]
    exact ⟨cpu, reached, fun _ => arrived, fun _ _ jumps => by contradiction, .same _ 0 [], trivial⟩
  | goto name =>
    rw [command] at effect code
    cases effect
    obtain ⟨target, bound⟩ := code.symbol_bound
    obtain ⟨after, reached, arrived, same⟩ := code.goto_reaches bound
    simp only [Site.jump?, changed, Leaves, command]
    refine ⟨after, reached, fun stays => by contradiction, fun label word jumps known => ?_, same ▸ .same _ 0 [],
      trivial⟩
    cases jumps
    cases bound.symm.trans known
    exact arrived
  | ifGoto name =>
    rw [command] at effect
    cases effect
    obtain ⟨after, reached, next, jump, law⟩ := loaded.ifGoto_law here located command room
    simp only [changed, Leaves, command]
    exact ⟨after, reached, next, jump, law, trivial⟩
  | function name locals =>
    rw [command] at effect
    cases effect
    obtain ⟨after, reached, arrived, law, zeros⟩ := loaded.function_law here located command room
    simp only [Site.jump?, changed, command]
    exact ⟨after, reached, fun _ => arrived, fun _ _ jumps => by contradiction, law, zeros⟩
  | call | ret =>
    rw [command] at effect
    contradiction

end StackMachine

/-- The code of a command other than a call or a return has the stack effect of the command and changes no other
cell. -/
theorem command_stack_effect {options : BuildOptions} {sources : List (String × String)}
    {units : List SourceUnit} {lines : List Line} {image : Image}
    (built : image.BuiltFrom options sources units lines) {position : Nat} {site : Site} {taken left : Word}
    (here : (Site.ofUnits units)[position]? = some site)
    (effect : site.command.stackEffect? = some (taken, left)) {start : Cpu}
    (located : start.pc = (StackMachine.ofProgram options units image).address position)
    (room : start.memory.StackRoom taken left)
    (inside : ∀ address ∈ (StackMachine.ofProgram options units image).operand? site start.memory,
      address ≠ 0 ∧ address.toNat ≤ 32767) :
    let machine := StackMachine.ofProgram options units image
    ∃ after, image.Reaches start after ∧
      (site.jump? start.memory = none → after.pc = machine.address (position + 1)) ∧
      (∀ label earlier later, site.jump? start.memory = some label → lines = earlier ++ .label label :: later →
        after.pc = Line.size earlier) ∧
      start.memory.StackLaw after.memory taken left (machine.changed site start.memory) ∧
      machine.Leaves site start.memory after.memory := by
  intro machine
  obtain ⟨after, reached, next, jump, facts⟩ := built.loaded.command_law here located effect room inside
  refine ⟨after, reached, next, fun label earlier later jumps whole => ?_, facts⟩
  have fits := link_fits built.solid_units built.wellNamed built.link_eq
  obtain ⟨word, bound, address⟩ := Image.assemble_label built.assembled fits whole
  rw [jump label word jumps bound, address]

/-- A program that pops through a pointer. -/
def poppingSources : List (String × String) := [("Main", "pop local 13")]

/-- A pop whose target is the scratch cell that keeps the address of the target. -/
theorem stack_effect_poppingSources :
    ∃ image units lines, Image.BuiltFrom image {} poppingSources units lines ∧ ∃ start after : Cpu,
      start.pc = (StackMachine.ofProgram {} units image).address 0 ∧ start.memory.read 0 = 257 ∧
      start.memory.read 1 = 0 ∧ start.memory.read 256 = 7 ∧ image.Reaches start after ∧
      after.pc = (StackMachine.ofProgram {} units image).address 1 ∧ after.memory.read 0 = 256 ∧
      after.memory.read 13 = 7 ∧
      ∀ address, address ≠ 0 → address ≠ 13 → after.memory.read address = start.memory.read address := by
  obtain ⟨image, units, lines, built, sites⟩ := @Image.BuiltFrom.exists_of_any {} poppingSources
    (by rw [poppingSources, List.forall_mem_singleton]; exact IsIdentifier.solid (by decide))
    [⟨"Main", none, 0, .pop .locals 13⟩] (by decide +kernel) (by decide +kernel)
  obtain ⟨memory, holds⟩ := @Memory.exists_holding [(0, 257), (1, 0), (256, 7)] (by decide) (by simp [memorySize])
  have top : memory.read 0 = 257 := holds (0, 257) (by decide)
  have base : memory.read 1 = 0 := holds (1, 0) (by decide)
  have value : memory.read 256 = 7 := holds (256, 7) (by decide)
  have operand : (StackMachine.ofProgram {} units image).operand? ⟨"Main", none, 0, .pop .locals 13⟩ memory =
      some 13 := by
    change some (memory.read 1 + 13) = _
    rw [base]
    rfl
  obtain ⟨after, reached, next, -, law, popped⟩ := @command_stack_effect _ _ _ _ _ built 0 _ 1 0
    (by rw [sites]; rfl) rfl { memory, pc := (StackMachine.ofProgram {} units image).address 0 } rfl
    (by
      intro offset small
      rw [top]
      bv_omega)
    (by
      rw [operand]
      rintro _ ⟨⟩
      decide)
  refine ⟨image, units, lines, built, _, after, rfl, top, base, value, reached, next rfl, ?_, ?_, ?_⟩
  · rw [law.stack, top]
    rfl
  · have cell := popped 13 operand
    rwa [top, show (257 : Word) - 1 = 256 by decide, value] at cell
  · intro address nonzero other
    refine law.frame address nonzero (fun offset small => by bv_omega) ?_
    rw [StackMachine.changed, operand]
    simpa [Site.scratch] using other

end HackVM
