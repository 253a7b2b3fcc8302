import HackVM.Proofs.Annotations
import HackVM.Proofs.StackEffects
import HackVM.Proofs.UniqueLabels

/-! # The opening call

A program that starts with a call of its entry aims the stack pointer at the first cell of the stack, saves a
frame there and jumps to the entry. The machine comes to the entry for the first time with nothing else
changed, whatever the memory holds at the start. In automatic mode a program starts like this iff its entry is one of
its functions.
-/

namespace HackVM

namespace Memory

/-- How the start of a program leaves the memory. The stack holds the frame of the opening call, and LCL and ARG
are aimed behind and at it. -/
structure Booted (before after : Memory) (returnAddress : Word) : Prop where
  stack : after.read 0 = 261
  locals : after.read 1 = 261
  argument : after.read 2 = 256
  returnAddress : after.read 256 = returnAddress
  pointers : ∀ pointer : Pointer, after.read (256 + pointer.cell) = before.read pointer.cell
  others : ∀ address, address ∉ [0, 1, 2, 256, 257, 258, 259, 260] → after.read address = before.read address

private theorem pointer_pushed {memory : Memory} (low : 256 ≤ (memory.read 0).toNat) (value : Word)
    (pointer : Pointer) :
    (memory.pushed value).read pointer.cell = memory.read pointer.cell := by
  have range := Effect.cell_range pointer
  rw [pushed, read_write_of_ne _ (by bv_omega), read_write_of_ne _ (by bv_omega)]

/-- A stack that starts at its first cell, with a frame pushed and the pointers aimed. -/
theorem booted_pushedAll {before initial saved : Memory} {returnAddress : Word}
    (aimed : initial = before.write 0 256)
    (frame : saved = initial.pushedAll
      (returnAddress :: [Pointer.locals, .argument, .this, .that].map fun pointer => initial.read pointer.cell)) :
    before.Booted ((saved.write 2 (saved.read 0 - 0 - 5)).write 1 (saved.read 0)) returnAddress := by
  have base : initial.read 0 = 256 := by rw [aimed, read_write_self _ Effect.zero_bound]
  obtain ⟨law, cells⟩ := @StackLaw.pushedAll initial
    (returnAddress :: [Pointer.locals, .argument, .this, .that].map fun pointer => initial.read pointer.cell)
    (by
      rw [base]
      simp only [List.length_cons, List.length_map, List.length_nil]
      intro index small
      bv_omega)
  rw [← frame, base] at cells
  rw [← frame] at law
  have stack : saved.read 0 = 261 := by rw [law.stack, base]; rfl
  have kept : ∀ address, 256 ≤ address.toNat →
      ((saved.write 2 (saved.read 0 - 0 - 5)).write 1 (saved.read 0)).read address = saved.read address := by
    intro address deep
    rw [read_write_of_ne _ (Effect.ne_of_deep deep (by decide)),
      read_write_of_ne _ (Effect.ne_of_deep deep (by decide))]
  refine ⟨?_, ?_, ?_, ?_, ?_, ?_⟩
  · rw [read_write_of_ne _ (by decide), read_write_of_ne _ (by decide), stack]
  · rw [read_write_self _ (by decide), stack]
  · rw [read_write_of_ne _ (by decide), read_write_self _ (by decide), stack]
    rfl
  · rw [kept _ (by decide)]
    exact cells 0 returnAddress rfl
  · intro pointer
    have range := Effect.cell_range pointer
    have cell : initial.read pointer.cell = before.read pointer.cell := by
      rw [aimed, read_write_of_ne _ (by bv_omega)]
    rw [kept _ (by bv_omega), ← cell]
    cases pointer with
    | locals => exact cells 1 _ rfl
    | argument => exact cells 2 _ rfl
    | this => exact cells 3 _ rfl
    | that => exact cells 4 _ rfl
  · intro address outside
    simp only [List.mem_cons, List.not_mem_nil, or_false, not_or] at outside
    obtain ⟨zero, one, two, cells⟩ := outside
    rw [read_write_of_ne _ one, read_write_of_ne _ two, law.frame address zero ?_ List.not_mem_nil, aimed,
      read_write_of_ne _ zero]
    intro offset small
    rw [base]
    simp only [List.length_cons, List.length_map, List.length_nil] at small
    bv_omega

end Memory

namespace Template

variable {symbols : SymbolTable} (known : symbols.Extends Image.predefined) {cpu : Cpu}

include known

/-- The code that aims SP at the first cell of the stack. -/
theorem run_initStack :
    ∃ after, Line.run? symbols initStack cpu = some after ∧ after.memory = cpu.memory.write 0 256 := by
  rw [initStack, Line.run?_number, Line.run?_register rfl, Line.run?_symbol (SymbolTable.known_sp known),
    Line.run?_store (fun _ => Effect.zero_bound), Line.run?]
  exact ⟨_, rfl, rfl⟩

/-- The code that pushes pointers. None of them is changed by this, so they are pushed as they were at the
start. -/
theorem run_pushPointers {pointers : List Pointer} (room : ∀ index < pointers.length,
      256 ≤ (cpu.memory.read 0).toNat + index ∧ (cpu.memory.read 0).toNat + index ≤ 32767) :
    ∃ after, Line.run? symbols (pointers.flatMap fun pointer => pushCell pointer.symbol) cpu = some after ∧
      after.memory = cpu.memory.pushedAll (pointers.map fun pointer => cpu.memory.read pointer.cell) := by
  induction pointers generalizing cpu with
  | nil => exact ⟨cpu, rfl, rfl⟩
  | cons pointer rest ih =>
    rw [List.length_cons] at room
    have start := room 0 (by omega)
    have low : cpu.memory.read 0 ≠ 0 := Effect.ne_of_deep start.1 (by decide)
    obtain ⟨middle, ran, pushed⟩ := run_pushCell known low (Nat.lt_succ_of_le start.2)
      (SymbolTable.known_pointer known pointer) (Effect.pointer_bound pointer)
    have stack := cpu.memory.stack_pushed (cpu.memory.read pointer.cell)
    have same := Memory.pointer_pushed start.1 (cpu.memory.read pointer.cell)
    rw [← pushed] at stack same
    obtain ⟨after, later, memory⟩ := @ih middle (fun index small => by
      have := room (index + 1) (by omega)
      rw [stack]
      bv_omega)
    refine ⟨after, ?_, ?_⟩
    · rw [List.flatMap_cons, Line.run?_append, ran, Option.bind_some, later]
    · simp only [same] at memory
      rw [memory, pushed, List.map_cons, Memory.pushedAll_cons]

/-- The code in front of the jump of a call pushes a frame and aims the pointers. -/
theorem run_call {point : String} {returnAddress : Word} (bound : symbols[point]? = some returnAddress)
    (arguments : Word) (low : 256 ≤ (cpu.memory.read 0).toNat) (high : (cpu.memory.read 0).toNat + 5 ≤ memorySize) :
    ∃ after saved, Line.run? symbols (pushAddress point ++
        [Pointer.locals, .argument, .this, .that].flatMap (fun pointer => pushCell pointer.symbol) ++
        [.symbol "SP", .store .D (.read .m), .number (arguments + frameSize), .store .D (.dMinus .a),
         .symbol "ARG", .store .M .d, .symbol "SP", .store .D (.read .m), .symbol "LCL", .store .M .d]) cpu =
        some after ∧
      saved = cpu.memory.pushedAll
        (returnAddress :: [Pointer.locals, .argument, .this, .that].map fun pointer => cpu.memory.read pointer.cell) ∧
      after.memory = (saved.write 2 (saved.read 0 - arguments - 5)).write 1 (saved.read 0) := by
  have size : memorySize = 32768 := rfl
  obtain ⟨first, ran₁, pushed⟩ := run_pushAddress known (Effect.ne_of_deep low (by decide)) (by omega) bound
  have stack := cpu.memory.stack_pushed returnAddress
  have same := Memory.pointer_pushed low returnAddress
  rw [← pushed] at stack same
  obtain ⟨second, ran₂, saved⟩ := @run_pushPointers _ known first [.locals, .argument, .this, .that] (by
    rw [stack]
    simp only [List.length_cons, List.length_nil]
    intro index small
    bv_omega)
  obtain ⟨third, ran₃, aimed⟩ := @run_aim _ known second arguments
  refine ⟨third, second.memory, ?_, ?_, aimed⟩
  · rw [Line.run?_append, Line.run?_append, ran₁, Option.bind_some, ran₂, Option.bind_some, ran₃]
  · simp only [same] at saved
    rw [saved, pushed, Memory.pushedAll_cons]

end Template

/-- An image that starts with the opening call gets to the entry by the instructions of the call. -/
theorem Image.CodeAt.boots {image : Image} (known : image.symbols.Extends Image.predefined) {entry point : String}
    (code : image.CodeAt 0 (Template.initStack ++ Template.call entry 0 point)) {target returnAddress : Word}
    (callee : image.symbols[entry]? = some target) (behind : image.symbols[point]? = some returnAddress)
    {start : Cpu} (reset : start.pc = 0) :
    ∃ after, image.ReachesBelow (Line.size (Template.initStack ++ Template.call entry 0 point)) start after ∧
      after.pc = target.toNat ∧ start.memory.Booted after.memory returnAddress := by
  obtain ⟨first, later⟩ := Image.codeAt_append.mp code
  obtain ⟨initial, ran₁, aimed⟩ := @Template.run_initStack _ known start
  rw [← reset] at first
  obtain ⟨reached₁, place₁⟩ := first.reachesBelow ran₁
  have base : initial.memory.read 0 = 256 := by rw [aimed, Memory.read_write_self _ Effect.zero_bound]
  obtain ⟨called, saved, ran₂, frame, memory⟩ := @Template.run_call _ known initial _ _ behind 0
    (by rw [base]; decide) (by rw [base]; decide)
  obtain ⟨body, -⟩ := Image.codeAt_append.mp later
  obtain ⟨saves, jump⟩ := Image.codeAt_append.mp body
  rw [Nat.zero_add, ← Nat.zero_add (Line.size Template.initStack), ← reset, ← place₁] at saves jump
  obtain ⟨reached₂, place₂⟩ := saves.reachesBelow ran₂
  rw [← place₂] at jump
  obtain ⟨after, reached₃, arrived, same⟩ := jump.goto_reachesBelow callee
  refine ⟨after, ?_, arrived, ?_⟩
  · have total : Line.size (Template.initStack ++ Template.call entry 0 point) = 46 := rfl
    have opening : initial.pc = 4 := by rw [place₁, reset]; rfl
    have behind : called.pc = 44 := by rw [place₂, opening]; rfl
    rw [total]
    refine ((reached₁.mono ?_).trans (reached₂.mono ?_)).trans (reached₃.mono ?_)
    · rw [← place₁, opening]
      decide
    · rw [← place₂, behind]
      decide
    · rw [behind]
  · rw [same, memory]
    exact Memory.booted_pushedAll aimed frame

/-- In automatic mode the entry is called iff it is a function of the program. -/
theorem BuildOptions.callsEntry_iff_of_auto {options : BuildOptions} {units : List SourceUnit}
    (automatic : options.bootstrap = .auto) :
    options.callsEntry units = true ↔
      ∃ site ∈ Site.ofUnits units, ∃ locals, site.command = .function options.entry locals := by
  rw [callsEntry_iff_exists automatic]
  constructor
  · rintro ⟨unit, added, locals, listed⟩
    obtain ⟨site, present, -, command⟩ := Site.exists_mem_ofUnits added listed
    exact ⟨site, present, locals, command⟩
  · rintro ⟨site, present, locals, command⟩
    have member : .function options.entry locals ∈ units.flatMap SourceUnit.commands := by
      rw [← Site.map_command_ofUnitsFrom 0 units]
      exact List.mem_map.mpr ⟨site, present, command⟩
    obtain ⟨unit, added, listed⟩ := List.mem_flatMap.mp member
    exact ⟨unit, added, locals, listed⟩

namespace Image.BuiltFrom

variable {image : Image} {options : BuildOptions} {sources : List (String × String)} {units : List SourceUnit}
  {lines : List Line} (built : image.BuiltFrom options sources units lines)
  (calls : options.callsEntry units = true) {site : Site} (present : site ∈ Site.ofUnits units)
  {locals : Word} (command : site.command = .function options.entry locals)

include built calls present command

/-- A program that calls a function of its own at the start has the code of the call there. -/
theorem opening_code :
    ∃ number, (Line.labels lines).head? = some (Label.generated Generator.bootstrapOwner .returnPoint number) ∧
      image.CodeAt 0 (Template.initStack ++ Template.call options.entry 0
        (Label.generated Generator.bootstrapOwner .returnPoint number)) := by
  have fits := link_fits built.solid_units built.wellNamed built.link_eq
  have named := Site.ofUnits_wellNamed built.solid_units built.wellNamed site present
  have entry : IsIdentifier options.entry := named.command _ (by simp [command, Command.names])
  obtain ⟨draft, rfl, made, rfl⟩ := link_eq_ok built.link_eq
  have wanted : draft.options.bootstrap.wanted draft.entryDefined = true := by
    rw [made.entryDefined]
    exact calls
  have legible : ∀ line ∈ draft.start, line.Legible := by
    intro line member
    rcases draft.start_legible line member with rfl | legible
    · exact entry.isSymbol
    · exact legible
  have code := @Image.assemble_codeAt _ _ built.assembled fits [] draft.start draft.code rfl legible
  refine ⟨draft.generator.returnNumber, ?_, ?_⟩
  · rw [Line.labels_append, Draft.labels_start, if_pos wanted]
    rfl
  · rw [Draft.start, if_pos wanted, Generator.bootstrap] at code
    generalize draft.generator.annotate = annotate at code
    cases annotate <;> exact code

end Image.BuiltFrom

/-- A run up to a symbol ends where the machine comes to its address by instructions in front of it. -/
theorem Image.ReachesBelow.runUntil {image : Image} {limit : Nat} {cpu after : Cpu}
    (reached : image.ReachesBelow limit cpu after) {label : String} {stop : Word}
    (bound : image.symbols[label]? = some stop) (ahead : limit ≤ stop.toNat) (arrived : after.pc = stop.toNat) :
    ∃ used, ∀ steps > used, image.runUntil label steps cpu = .ok () after := by
  obtain ⟨used, passes⟩ := reached.runStepsUntil ahead
  refine ⟨used, fun steps enough => ?_⟩
  obtain ⟨more, rfl⟩ := Nat.exists_eq_add_of_lt enough
  rw [Image.runUntil, Image.addressOf, bound]
  simp only [Nat.add_assoc, passes]
  rw [Image.runStepsUntil, if_pos arrived]

/-- From a reset the machine comes to the entry for the first time with the frame of the opening call
on the stack. -/
theorem opening_call_enters {options : BuildOptions} {sources : List (String × String)}
    {units : List SourceUnit} {lines : List Line} {image : Image}
    (built : image.BuiltFrom options sources units lines) :
    (options.bootstrap = .auto → (Template.initStack <+: Line.uncommented lines ↔
      ∃ site ∈ Site.ofUnits units, ∃ locals, site.command = .function options.entry locals)) ∧
    ∀ (position : Nat) (site : Site) (locals : Word), Template.initStack <+: Line.uncommented lines →
      (Site.ofUnits units)[position]? = some site → site.command = .function options.entry locals →
      let machine := StackMachine.ofProgram options units image
      ∃ entry number returnAddress, image.addressOf options.entry = .ok entry ∧
        entry.toNat = machine.address position ∧
        (Line.labels lines).head? = some (Label.generated Generator.bootstrapOwner .returnPoint number) ∧
        image.addressOf (Label.generated Generator.bootstrapOwner .returnPoint number) = .ok returnAddress ∧
        ∀ start : Cpu, start.pc = 0 → ∃ after,
          (∃ used, ∀ limit > used, image.runUntil options.entry limit start = .ok () after) ∧
          after.pc = machine.address position ∧ start.memory.Booted after.memory returnAddress := by
  refine ⟨fun automatic => (link_boots_iff built.link_eq).trans (BuildOptions.callsEntry_iff_of_auto automatic), ?_⟩
  intro position site locals boots here command machine
  have calls := (link_boots_iff built.link_eq).mp boots
  obtain ⟨number, label, code⟩ := built.opening_code calls (List.mem_of_getElem? here) command
  obtain ⟨returnAddress, behind, -⟩ := (Image.codeAt_append.mp code).2.returnPoint_bound
  have entered : site.command.entered? = some options.entry := by rw [command]; rfl
  obtain ⟨entry, callee, address⟩ := built.loaded.function_bound here entered
  refine ⟨entry, number, returnAddress, ?_, address, label, ?_, fun start reset => ?_⟩
  · rw [Image.addressOf, callee]
  · rw [Image.addressOf, behind]
  · obtain ⟨after, reached, arrived, booted⟩ := code.boots built.loaded.holds.predefined callee behind reset
    refine ⟨after, reached.runUntil callee ?_ arrived, arrived.trans address, booted⟩
    rw [address, StackMachine.address, StackMachine.ofProgram, BuildOptions.startSize, if_pos calls]
    exact Nat.le_add_right ..

/-- A program whose unit uses the names that the return label of the opening call is chosen from. -/
def bootingSources : List (String × String) := [("BOOTSTRAP", "label END\nfunction Sys.init 0\ncall Sys.init 0")]

/-- A program comes from a reset to its entry, which is not its first command. -/
theorem opening_call_bootingSources :
    ∃ image units lines, Image.BuiltFrom image {} bootingSources units lines ∧ ∃ start after : Cpu,
      start.pc = 0 ∧ start.memory.read 1 = 7 ∧ start.memory.read 256 = 8 ∧
      (∃ steps, image.runUntil "Sys.init" steps start = .ok () after) ∧
      after.pc = (StackMachine.ofProgram {} units image).address 1 ∧ after.memory.read 0 = 261 ∧
      after.memory.read 257 = 7 ∧
      ∃ number, image.addressOf (Label.generated "BOOTSTRAP" .returnPoint number) =
        .ok (after.memory.read 256) := by
  obtain ⟨image, units, lines, built, sites⟩ := @Image.BuiltFrom.exists_of_any {} bootingSources
    (by rw [bootingSources, List.forall_mem_singleton]; exact IsIdentifier.solid (by decide))
    [⟨"BOOTSTRAP", none, 0, .label "END"⟩, ⟨"BOOTSTRAP", none, 0, .function "Sys.init" 0⟩,
      ⟨"BOOTSTRAP", some "Sys.init", 0, .call "Sys.init" 0⟩] (by decide +kernel) (by decide +kernel)
  obtain ⟨memory, holds⟩ := @Memory.exists_holding [(1, 7), (256, 8)] (by decide) (by simp [memorySize])
  have locals : memory.read 1 = 7 := holds (1, 7) (by decide)
  have cell : memory.read 256 = 8 := holds (256, 8) (by decide)
  obtain ⟨automatic, enters⟩ := opening_call_enters built
  have boots := (automatic rfl).mpr ⟨⟨"BOOTSTRAP", none, 0, .function "Sys.init" 0⟩, by simp [sites], 0, rfl⟩
  obtain ⟨entry, number, returnAddress, -, -, -, label, runs⟩ := enters 1 _ 0 boots (by rw [sites]; rfl) rfl
  obtain ⟨after, ⟨used, run⟩, arrived, booted⟩ := runs { memory } rfl
  refine ⟨image, units, lines, built, { memory }, after, rfl, locals, cell, ⟨used + 1, run _ (by omega)⟩, arrived,
    booted.stack, ?_, number, ?_⟩
  · exact (booted.pointers .locals).trans locals
  · rw [booted.returnAddress]
    exact label

end HackVM
