import HackVM.Proofs.Blocks

/-! # Programs do what their commands say

An image that a program was assembled to does what the stack machine does on the commands of the
program. One step of the stack machine is matched by the code of its command, so runs of any length are
matched. The memories agree outside the two scratch cells, and the machine stands where the code of the
position starts.
-/

namespace HackVM

namespace StackMachine

/-- An image holds the code of a stack machine's commands, all of which are in range, and has the static
variables in the same cells. -/
structure Loaded (machine : StackMachine) (image : Image) : Prop where
  holds : image.Holds machine.base machine.sites
  admitted : ∀ site ∈ machine.sites, site.command.Admitted
  statics : ∀ name, machine.static? name = image.symbols[name]?

theorem ofProgram_loaded {options : BuildOptions} {units : List SourceUnit} {lines : List Line} {image : Image}
    (solid : ∀ unit ∈ units, Text.Solid unit.name.toList) (named : ∀ unit ∈ units, unit.WellNamed)
    (linked : link options units = .ok lines) (assembled : Image.assemble (lines.map Line.render) = .ok image) :
    (ofProgram options units image).Loaded image := by
  obtain ⟨draft, -, made, -⟩ := link_eq_ok linked
  exact ⟨link_holds solid named linked assembled, made.admitted, fun _ => rfl⟩

section Places

variable {machine : StackMachine} {position : Nat} {site : Site}

theorem address_succ (here : machine.sites[position]? = some site) :
    machine.address (position + 1) = machine.address position + Line.size site.code := by
  rw [address, address, List.take_add_one, here, Option.toList_some, Site.size_append, Nat.add_assoc]
  simp [Site.size]

variable {image : Image} (loaded : machine.Loaded image)

include loaded

theorem Loaded.codeAt (here : machine.sites[position]? = some site) :
    image.CodeAt (machine.address position) site.code := by
  obtain ⟨bound, here⟩ := List.getElem?_eq_some_iff.mp here
  apply loaded.holds.code (machine.sites.take position) site (machine.sites.drop (position + 1))
  rw [← here, List.getElem_cons_drop, List.take_append_drop]

/-- A label in scope is bound to the address of its position. -/
theorem Loaded.label_bound {name : String} {target : Nat}
    (found : machine.labelPosition? site name = some target) :
    ∃ word, image.symbols[site.labelName name]? = some word ∧ word.toNat = machine.address target := by
  obtain ⟨bound, matched, -⟩ := List.findIdx?_eq_some_iff_getElem.mp found
  simp only [Bool.and_eq_true, decide_eq_true_eq] at matched
  obtain ⟨⟨command, unit⟩, function⟩ := matched
  have code := loaded.codeAt (List.getElem?_eq_getElem bound)
  simp only [Site.code, command, Site.labelName, Site.scope, unit, function] at code
  exact code.1

/-- A function is bound to the address of its position. -/
theorem Loaded.function_bound {name : String} (here : machine.sites[position]? = some site)
    (entered : site.command.entered? = some name) :
    ∃ word, image.symbols[name]? = some word ∧ word.toNat = machine.address position := by
  have code := loaded.codeAt here
  rw [Site.code] at code
  cases command : site.command with
  | function own locals =>
    rw [command] at entered code
    cases entered
    exact code.1
  | arithmetic | push | pop | label | goto | ifGoto | call | ret =>
    rw [command] at entered
    contradiction

omit loaded in
private theorem entered_of_functionPosition? {name : String} {target : Nat}
    (found : machine.functionPosition? name = some target) :
    ∃ callee, machine.sites[target]? = some callee ∧ callee.command.entered? = some name := by
  obtain ⟨bound, matched, -⟩ := List.findIdx?_eq_some_iff_getElem.mp found
  exact ⟨_, List.getElem?_eq_getElem bound, of_decide_eq_true matched⟩

omit loaded in
private theorem address_of_addressPosition? {word : Word} {target : Nat}
    (found : machine.addressPosition? word = some target) : machine.address target = word.toNat := by
  simpa using List.find?_some found

end Places

section Cells

variable {machine : StackMachine} {image : Image} (loaded : machine.Loaded image) {unit : String}
  {segment : Segment} {index : Word} (admitted : ∀ limit ∈ segment.limit?, index ≤ limit)

include loaded admitted

/-- The cell of an index is where the code looks for it. -/
theorem Loaded.cell_cases {address : Word} {memory next : Memory}
    (found : machine.cell unit segment index memory = some (address, next)) :
    memory = next ∧
      ((∃ base, segment.place unit index = .indirect base index ∧ address = memory.read base.cell + index) ∨
        ∃ name, segment.place unit index = .direct name ∧ image.symbols[name]? = some address) := by
  have known := loaded.holds.predefined
  have indirect : ∀ base : Pointer, segment.place unit index = .indirect base index →
      (do return (← Effect.read base.cell) + index : Effect Word) memory = some (address, next) →
      memory = next ∧
        ((∃ base, segment.place unit index = .indirect base index ∧ address = memory.read base.cell + index) ∨
          ∃ name, segment.place unit index = .direct name ∧ image.symbols[name]? = some address) := by
    intro base place found
    obtain ⟨pointer, _, fetched, returned⟩ := Effect.bind_eq_some_iff.mp found
    obtain ⟨-, rfl, rfl⟩ := Effect.read_eq_some_iff.mp fetched
    cases returned
    exact ⟨rfl, .inl ⟨base, place, rfl⟩⟩
  cases segment with
  | constant => contradiction
  | locals => exact indirect .locals rfl found
  | argument => exact indirect .argument rfl found
  | this => exact indirect .this rfl found
  | that => exact indirect .that rfl found
  | static =>
    obtain ⟨cell, rfl⟩ := Effect.ofOption_eq_some_iff.mp found
    exact ⟨rfl, .inr ⟨_, rfl, by rw [← loaded.statics, cell]⟩⟩
  | pointer =>
    cases found
    refine ⟨rfl, .inr ⟨_, rfl, ?_⟩⟩
    have bound : index ≤ 1 := admitted 1 rfl
    by_cases zero : index = 0
    · subst zero
      exact SymbolTable.known_pointer known .this
    · obtain rfl : index = 1 := by bv_omega
      exact SymbolTable.known_pointer known .that
  | temp =>
    cases found
    refine ⟨rfl, .inr ⟨_, rfl, ?_⟩⟩
    have bound : index ≤ 7 := admitted 7 rfl
    have small : (Segment.tempBase + index).toNat < 16 := by
      rw [Segment.tempBase]
      bv_omega
    have register := SymbolTable.known_register known small
    rwa [BitVec.ofNat_toNat, BitVec.setWidth_eq] at register

end Cells

section Step

variable {machine : StackMachine} {image : Image} (loaded : machine.Loaded image) {position : Nat} {site : Site}
  (here : machine.sites[position]? = some site) {cpu : Cpu} (located : cpu.pc = machine.address position)

include loaded here located

/-- Code without jumps leads to the next position. -/
theorem Loaded.run_leads {after : Cpu} (ran : Line.run? image.symbols site.code cpu = some after) :
    image.Reaches cpu after ∧ after.pc = machine.address (position + 1) := by
  have code := loaded.codeAt here
  rw [← located] at code
  obtain ⟨reached, behind⟩ := code.reaches ran
  exact ⟨reached, by rw [behind, located, address_succ here]⟩

theorem Loaded.straight {next : Memory}
    (ran : ∃ after, Line.run? image.symbols site.code cpu = some after ∧ after.memory.Agrees next) :
    image.Arrives cpu (machine.address (position + 1)) next := by
  obtain ⟨after, ran, agrees⟩ := ran
  obtain ⟨reached, arrived⟩ := loaded.run_leads here located ran
  exact ⟨after, reached, agrees, arrived⟩

variable {memory next : Memory} (agrees : cpu.memory.Agrees memory) (deep : 256 ≤ (memory.read 0).toNat)

include agrees deep

private theorem Loaded.arithmetic_simulated {operator : Operator} {result : Unit}
    (command : site.command = .arithmetic operator)
    (operated : Effect.operate operator memory = some (result, next)) :
    image.Arrives cpu (machine.address (position + 1)) next := by
  have known := loaded.holds.predefined
  have code := loaded.codeAt here
  have size := address_succ here
  have straight := @Loaded.straight _ _ loaded _ _ here _ located next
  simp only [Site.code, command] at code size straight
  rw [← located] at code size
  cases operator with
  | add =>
    exact straight (Template.binary_operates known agrees deep (fun inD _ inM => BitVec.add_comm inD inM) operated)
  | sub => exact straight (Template.binary_operates known agrees deep (fun _ _ _ => rfl) operated)
  | and =>
    exact straight (Template.binary_operates known agrees deep (fun inD _ inM => BitVec.and_comm inD inM) operated)
  | or =>
    exact straight (Template.binary_operates known agrees deep (fun inD _ inM => BitVec.or_comm inD inM) operated)
  | neg => exact straight (Template.unary_operates known agrees deep (fun _ _ _ => rfl) operated)
  | not => exact straight (Template.unary_operates known agrees deep (fun _ _ _ => rfl) operated)
  | eq => rw [size]; exact code.comparison_reaches known agrees deep operated
  | gt => rw [size]; exact code.comparison_reaches known agrees deep operated
  | lt => rw [size]; exact code.comparison_reaches known agrees deep operated

private theorem Loaded.push_simulated {segment : Segment} {index value : Word} {middle : Memory} {result : Unit}
    (command : site.command = .push segment index)
    (fetched : machine.entry site.unit segment index memory = some (value, middle))
    (pushed : Effect.push value middle = some (result, next)) :
    image.Arrives cpu (machine.address (position + 1)) next := by
  have known := loaded.holds.predefined
  have admitted := loaded.admitted site (List.mem_of_getElem? here)
  have straight := @Loaded.straight _ _ loaded _ _ here _ located next
  rw [command] at admitted
  simp only [Site.code, command] at straight
  have forget : ∀ {lines},
      (∃ after, Line.run? image.symbols lines cpu = some after ∧ after.memory.Agrees next ∧
        256 ≤ (next.read 0).toNat) →
      ∃ after, Line.run? image.symbols lines cpu = some after ∧ after.memory.Agrees next :=
    fun ran => ran.imp fun _ facts => ⟨facts.1, facts.2.1⟩
  by_cases constant : segment = .constant
  · subst constant
    cases fetched
    exact straight (forget (Template.pushNumber_pushes known agrees deep pushed))
  · have reads : (do Effect.read (← machine.cell site.unit segment index) : Effect Word) memory =
        some (value, middle) := by
      cases segment <;> first | contradiction | exact fetched
    obtain ⟨address, _, found, read⟩ := Effect.bind_eq_some_iff.mp reads
    obtain ⟨rfl, places⟩ := loaded.cell_cases admitted found
    obtain ⟨room, rfl, rfl⟩ := Effect.read_eq_some_iff.mp read
    obtain ⟨base, place, target⟩ | ⟨name, place, bound⟩ := places
    · rw [place] at straight
      exact straight (forget (Template.pushIndirect_pushes known agrees deep target room pushed))
    · rw [place] at straight
      exact straight (forget (Template.pushCell_pushes known agrees deep bound room pushed))

private theorem Loaded.pop_simulated {segment : Segment} {index address value : Word} {found popped : Memory}
    {result : Unit} (command : site.command = .pop segment index)
    (cell : machine.cell site.unit segment index memory = some (address, found))
    (pop : Effect.pop found = some (value, popped))
    (written : Effect.write address value popped = some (result, next)) :
    image.Arrives cpu (machine.address (position + 1)) next := by
  have known := loaded.holds.predefined
  have admitted := loaded.admitted site (List.mem_of_getElem? here)
  have straight := @Loaded.straight _ _ loaded _ _ here _ located next
  rw [command] at admitted
  simp only [Site.code, command] at straight
  obtain ⟨rfl, places⟩ := loaded.cell_cases admitted.2 cell
  obtain ⟨base, place, target⟩ | ⟨name, place, bound⟩ := places
  · rw [place] at straight
    exact straight (Template.popIndirect_pops known agrees deep target pop written)
  · rw [place] at straight
    exact straight (Template.popCell_pops known agrees deep bound pop written)

omit located agrees deep in
/-- The address behind a call fits a word. -/
theorem Loaded.returnAddress_toNat {name : String} {arguments : Word}
    (command : site.command = .call name arguments) :
    (BitVec.ofNat 16 (machine.address (position + 1))).toNat = machine.address (position + 1) := by
  have code := loaded.codeAt here
  have size := address_succ here
  simp only [Site.code, command] at code size
  obtain ⟨behind, -, address⟩ := code.returnPoint_bound
  rw [size, ← address, BitVec.ofNat_toNat, BitVec.setWidth_eq]

/-- The code of a call leads to the callee, with the address behind the call saved. -/
theorem Loaded.call_simulated {name : String} {arguments : Word} {target : Nat} {callee : Site} {result : Unit}
    (command : site.command = .call name arguments)
    (called : Effect.call (BitVec.ofNat 16 (machine.address (position + 1))) arguments memory =
      some (result, next))
    (there : machine.sites[target]? = some callee) (entered : callee.command.entered? = some name) :
    image.Arrives cpu (machine.address target) next := by
  have code := loaded.codeAt here
  have size := address_succ here
  simp only [Site.code, command] at code size
  obtain ⟨behind, bound, address⟩ := code.returnPoint_bound
  obtain ⟨word, callee, entry⟩ := loaded.function_bound there entered
  rw [← located] at code
  rw [size, ← address, BitVec.ofNat_toNat, BitVec.setWidth_eq] at called
  rw [← entry]
  exact code.call_reaches loaded.holds.predefined agrees deep callee bound called

/-- The code of a conditional jump leads to the label unless the word that is popped is zero. -/
theorem Loaded.ifGoto_simulated {name : String} {value : Word} {popped : Memory} {target : Nat}
    (command : site.command = .ifGoto name) (pop : Effect.pop memory = some (value, popped))
    (continued : (if value = 0 then pure (position + 1)
      else Effect.ofOption (machine.labelPosition? site name)) popped = some (target, next)) :
    image.Arrives cpu (machine.address target) next := by
  have code := loaded.codeAt here
  have size := address_succ here
  simp only [Site.code, command] at code size
  rw [← located] at code size
  obtain ⟨word, bound⟩ := code.ifGoto_bound
  have arrives := code.ifGoto_reaches loaded.holds.predefined agrees deep bound pop
  by_cases zero : value = 0
  · rw [if_pos zero] at continued arrives
    cases continued
    rwa [size]
  · rw [if_neg zero] at continued arrives
    obtain ⟨found, rfl⟩ := Effect.ofOption_eq_some_iff.mp continued
    obtain ⟨_, label, address⟩ := loaded.label_bound found
    cases bound.symm.trans label
    rwa [← address]

/-- Executing the code of a command is matched. -/
theorem Loaded.execute_simulated {target : Nat}
    (executed : machine.execute position site memory = some (target, next)) :
    image.Arrives cpu (machine.address target) next := by
  have known := loaded.holds.predefined
  have code := loaded.codeAt here
  have straight := @Loaded.straight _ _ loaded _ _ here _ located next
  simp only [Site.code] at code straight
  rw [← located] at code
  rw [execute] at executed
  cases command : site.command with
  | arithmetic operator =>
    rw [command] at executed
    obtain ⟨_, _, operated, returned⟩ := Effect.bind_eq_some_iff.mp executed
    cases returned
    exact loaded.arithmetic_simulated here located agrees deep command operated
  | push segment index =>
    rw [command] at executed
    obtain ⟨value, _, fetched, executed⟩ := Effect.bind_eq_some_iff.mp executed
    obtain ⟨_, _, pushed, returned⟩ := Effect.bind_eq_some_iff.mp executed
    cases returned
    exact loaded.push_simulated here located agrees deep command fetched pushed
  | pop segment index =>
    rw [command] at executed
    obtain ⟨address, _, found, executed⟩ := Effect.bind_eq_some_iff.mp executed
    obtain ⟨value, _, popped, executed⟩ := Effect.bind_eq_some_iff.mp executed
    obtain ⟨_, _, written, returned⟩ := Effect.bind_eq_some_iff.mp executed
    cases returned
    exact loaded.pop_simulated here located agrees deep command found popped written
  | label name =>
    rw [command] at executed straight
    cases executed
    exact straight ⟨cpu, rfl, agrees⟩
  | goto name =>
    rw [command] at executed code
    obtain ⟨found, rfl⟩ := Effect.ofOption_eq_some_iff.mp executed
    obtain ⟨word, bound, address⟩ := loaded.label_bound found
    obtain ⟨after, reached, position, same⟩ := code.goto_reaches bound
    exact ⟨after, reached, by rwa [same], by rw [position, address]⟩
  | ifGoto name =>
    rw [command] at executed
    obtain ⟨value, _, popped, continued⟩ := Effect.bind_eq_some_iff.mp executed
    exact loaded.ifGoto_simulated here located agrees deep command popped continued
  | function name locals =>
    rw [command] at executed straight
    obtain ⟨_, _, pushed, returned⟩ := Effect.bind_eq_some_iff.mp executed
    cases returned
    exact straight (Template.zeros_push known agrees deep pushed)
  | call name arguments =>
    rw [command] at executed
    obtain ⟨_, _, called, executed⟩ := Effect.bind_eq_some_iff.mp executed
    obtain ⟨found, rfl⟩ := Effect.ofOption_eq_some_iff.mp executed
    obtain ⟨callee, there, entered⟩ := entered_of_functionPosition? found
    exact loaded.call_simulated here located agrees deep command called there entered
  | ret =>
    rw [command] at executed code
    obtain ⟨word, _, returned, executed⟩ := Effect.bind_eq_some_iff.mp executed
    obtain ⟨found, rfl⟩ := Effect.ofOption_eq_some_iff.mp executed
    rw [address_of_addressPosition? found]
    exact code.ret_reaches known agrees deep returned

end Step

private theorem State.inStack_iff {state : State} :
    state.inStack = true ↔ 256 ≤ (state.memory.read 0).toNat ∧ (state.memory.read 0).toNat ≤ 32767 := by
  simp [State.inStack]

section Run

variable {machine : StackMachine} {image : Image} (loaded : machine.Loaded image)

include loaded

/-- One step of the stack machine is matched by the image. -/
theorem Loaded.step_simulated {state next : State} (room : state.inStack = true)
    (stepped : machine.step? state = some next) {cpu : Cpu} (located : cpu.pc = machine.address state.position)
    (agrees : cpu.memory.Agrees state.memory) :
    image.Arrives cpu (machine.address next.position) next.memory := by
  obtain ⟨site, here, executed⟩ := step?_eq_some_iff.mp stepped
  exact loaded.execute_simulated here located agrees (State.inStack_iff.mp room).1 executed

/-- A run of the stack machine is matched by the image. -/
theorem Loaded.run_simulated {steps : Nat} {start final : State} (ran : machine.run? steps start = some final)
    {cpu : Cpu} (located : cpu.pc = machine.address start.position) (agrees : cpu.memory.Agrees start.memory) :
    image.Arrives cpu (machine.address final.position) final.memory := by
  induction steps generalizing start cpu with
  | zero =>
    rw [run?] at ran
    split_ifs at ran
    cases ran
    exact ⟨cpu, .refl, agrees, located⟩
  | succ steps ih =>
    rw [run?] at ran
    split_ifs at ran with room
    obtain ⟨middle, stepped, later⟩ := Option.bind_eq_some_iff.mp ran
    obtain ⟨between, first, agrees, located⟩ := loaded.step_simulated room stepped located agrees
    obtain ⟨after, second, facts⟩ := ih later located agrees
    exact ⟨after, first.trans second, facts⟩

end Run

end StackMachine

/-- An image that sources were linked and assembled to. The names of the units hold neither blanks nor the
start of a comment. -/
structure Image.BuiltFrom (image : Image) (options : BuildOptions) (sources : List (String × String))
    (units : List SourceUnit) (lines : List Line) : Prop where
  solid : ∀ source ∈ sources, Text.Solid source.1.toList
  read : sources.mapM (fun (name, source) => SourceUnit.ofSource name source) = .ok units
  linked : linkSources options sources = .ok lines
  assembled : Image.assemble (lines.map Line.render) = .ok image

namespace Image.BuiltFrom

variable {image : Image} {options : BuildOptions} {sources : List (String × String)} {units : List SourceUnit}
  {lines : List Line}

section Units

variable (built : image.BuiltFrom options sources units lines)

include built

theorem link_eq : link options units = .ok lines := by
  have linked := built.linked
  rwa [linkSources, built.read] at linked

theorem solid_units : ∀ unit ∈ units, Text.Solid unit.name.toList :=
  fun unit member => (SourceUnit.ofSources_wellNamed built.read built.solid unit member).1

theorem wellNamed : ∀ unit ∈ units, unit.WellNamed :=
  fun unit member => (SourceUnit.ofSources_wellNamed built.read built.solid unit member).2

theorem loaded : (StackMachine.ofProgram options units image).Loaded image :=
  StackMachine.ofProgram_loaded built.solid_units built.wellNamed built.link_eq built.assembled

end Units

/-- Whether given sources are built to an image, and to which sites, can be computed. -/
theorem exists_of_any (solid : ∀ source ∈ sources, Text.Solid source.1.toList) {sites : List Site}
    (reads : (sources.mapM fun (name, source) => SourceUnit.ofSource name source).toOption.any
      (fun units => Site.ofUnits units = sites) = true)
    (links : (linkSources options sources).toOption.any
      (fun lines => (Image.assemble (lines.map Line.render)).toOption.any fun _ => true) = true) :
    ∃ image units lines, BuiltFrom image options sources units lines ∧ Site.ofUnits units = sites := by
  obtain ⟨units, read, same⟩ := Runs.exists_of_any reads
  obtain ⟨lines, linked, assembles⟩ := Runs.exists_of_any links
  obtain ⟨image, assembled, -⟩ := Runs.exists_of_any assembles
  exact ⟨image, units, lines, ⟨solid, read, linked, assembled⟩, of_decide_eq_true same⟩

end Image.BuiltFrom

/-- Whatever the stack machine does on the commands of a program in any number of steps, the
assembled program does. -/
theorem program_simulates_commands {options : BuildOptions} {units : List SourceUnit} {lines : List Line}
    {image : Image} (solid : ∀ unit ∈ units, Text.Solid unit.name.toList)
    (named : ∀ unit ∈ units, unit.WellNamed)
    (linked : link options units = .ok lines) (assembled : Image.assemble (lines.map Line.render) = .ok image)
    {steps : Nat} {start final : StackMachine.State}
    (ran : (StackMachine.ofProgram options units image).run? steps start = some final) {cpu : Cpu}
    (located : cpu.pc = (StackMachine.ofProgram options units image).address start.position)
    (agrees : cpu.memory.Agrees start.memory) :
    ∃ after, image.Reaches cpu after ∧ after.memory.Agrees final.memory ∧
      after.pc = (StackMachine.ofProgram options units image).address final.position :=
  (StackMachine.ofProgram_loaded solid named linked assembled).run_simulated ran located agrees

/-- A loop that pushes a word comes back to its start, one word higher. -/
theorem program_simulates_loop :
    let units := [SourceUnit.ofCommands "Main" [.label "LOOP", .push .constant 7, .goto "LOOP"]]
    let memory := Memory.write (Vector.replicate memorySize 0) 0 256
    ∃ lines image after, link {} units = .ok lines ∧ Image.assemble (lines.map Line.render) = .ok image ∧
      image.Reaches { memory } after ∧ after.memory.read 0 = 257 ∧ after.memory.read 256 = 7 ∧ after.pc = 0 := by
  intro units memory
  obtain ⟨lines, linked, assembles⟩ := @Runs.exists_of_any _ _ (link {} units)
    (fun lines => (Image.assemble (lines.map Line.render)).toOption.any fun _ => true) (by decide +kernel)
  obtain ⟨image, assembled, -⟩ := Runs.exists_of_any assembles
  have solid : ∀ unit ∈ units, Text.Solid unit.name.toList := by
    rw [List.forall_mem_singleton]
    exact IsIdentifier.solid (by decide)
  have named : ∀ unit ∈ units, unit.WellNamed := by
    rw [List.forall_mem_singleton]
    simp only [SourceUnit.WellNamed, Command.WellNamed]
    decide
  have top : memory.read 0 = 256 := Memory.read_write_self _ Effect.zero_bound _
  clear_value memory
  obtain ⟨final, pushed, stack, cell, -⟩ :=
    @Effect.exists_push memory (by rw [top]; decide) (by rw [top]; decide) 7
  rw [top] at stack cell
  have ran : (StackMachine.ofProgram {} units image).run? 3 ⟨0, memory⟩ = some ⟨0, final⟩ := by
    have low : ∀ position, StackMachine.State.inStack ⟨position, memory⟩ = true := fun _ =>
      StackMachine.State.inStack_iff.mpr (by rw [top]; decide)
    have high : ∀ position, StackMachine.State.inStack ⟨position, final⟩ = true := fun _ =>
      StackMachine.State.inStack_iff.mpr (by rw [stack]; decide)
    have first : (StackMachine.ofProgram {} units image).step? ⟨0, memory⟩ = some ⟨1, memory⟩ := rfl
    have second : (StackMachine.ofProgram {} units image).step? ⟨1, memory⟩ = some ⟨2, final⟩ := by
      refine StackMachine.step?_eq_some_iff.mpr ⟨⟨"Main", none, 0, .push .constant 7⟩, rfl, ?_⟩
      rw [StackMachine.execute, Effect.bind_eq_some_iff]
      exact ⟨7, memory, rfl, Effect.bind_eq_some_iff.mpr ⟨(), final, pushed, rfl⟩⟩
    have third : (StackMachine.ofProgram {} units image).step? ⟨2, final⟩ = some ⟨0, final⟩ := rfl
    rw [StackMachine.run?_succ (low 0) first, StackMachine.run?_succ (low 1) second,
      StackMachine.run?_succ (high 2) third, StackMachine.run?, if_pos (high 0)]
  obtain ⟨after, reached, agrees, place⟩ :=
    @program_simulates_commands _ _ _ _ solid named linked assembled _ _ _ ran { memory } rfl
      (Memory.Agrees.refl _)
  refine ⟨lines, image, after, linked, assembled, reached, ?_, ?_, place⟩
  · rw [agrees.read Effect.usable_zero, stack]
    rfl
  · rw [agrees.read (by decide : Effect.usable 256 = true), cell]

end HackVM
