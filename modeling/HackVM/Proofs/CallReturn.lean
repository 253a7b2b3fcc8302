import HackVM.Proofs.Simulation

/-! # Calls and returns

A call builds a frame on top of the stack and aims the pointers at it. A return, in whatever function
and however much later, takes the frame apart again, provided that the frame, LCL and ARG are as the
call left them. The result may overwrite a cell of the frame, which has been read by then.
-/

namespace HackVM

namespace Effect

/-- Part of a frame is on top of the stack: the return address and the pointers with cells below a bound. -/
structure Saved (before after : Memory) (returnAddress count : Word) : Prop where
  stack : after.read 0 = before.read 0 + count
  returnAddress : after.read (before.read 0) = returnAddress
  pointers : ∀ pointer : Pointer, pointer.cell < count →
    after.read (before.read 0 + pointer.cell) = before.read pointer.cell
  below : ∀ address, address ≠ 0 → address.toNat < 256 → after.read address = before.read address

/-- The pointers from a cell on are back from the frame, the result is in place of the arguments, and the
stack ends behind it. -/
structure Restored (before after : Memory) (least : Word) : Prop where
  stack : after.read 0 = before.read 2 + 1
  result : after.read (before.read 2) = before.read (before.read 0 - 1)
  pointers : ∀ pointer : Pointer, least ≤ pointer.cell →
    after.read pointer.cell = before.read (before.read 1 - 5 + pointer.cell)
  others : ∀ address, address ∉ [0, 1, 2, 3, 4, before.read 2] → after.read address = before.read address

section Call

variable {memory : Memory} (low : 256 ≤ (memory.read 0).toNat) (high : (memory.read 0).toNat + 5 ≤ 32767)

include low high

/-- A call saves the return address first. -/
theorem exists_saved (returnAddress : Word) :
    ∃ next, push returnAddress memory = some ((), next) ∧ Saved memory next returnAddress 1 := by
  obtain ⟨next, pushed, stack, cell, keep⟩ := exists_push low (by omega) returnAddress
  refine ⟨next, pushed, stack, cell, fun pointer early => ?_, fun address other small => ?_⟩
  · have := cell_range pointer
    bv_omega
  · exact keep address other (ne_of_deep low small).symm

/-- A call saves the pointers in the order of their cells. -/
theorem Saved.push {middle : Memory} {returnAddress count : Word}
    (saved : Saved memory middle returnAddress count) (pointer : Pointer) (turn : pointer.cell = count) :
    ∃ next, Effect.push (middle.read pointer.cell) middle = some ((), next) ∧
      Saved memory next returnAddress (count + 1) := by
  subst turn
  have range := cell_range pointer
  obtain ⟨next, pushed, stack, cell, keep⟩ := @exists_push middle (by rw [saved.stack]; bv_omega)
    (by rw [saved.stack]; bv_omega) (middle.read pointer.cell)
  rw [saved.stack] at stack cell keep
  refine ⟨next, pushed, by rw [stack, BitVec.add_assoc], ?_, ?_, ?_⟩
  · rw [keep _ (by bv_omega) (by bv_omega), saved.returnAddress]
  · intro other early
    have otherRange := cell_range other
    by_cases last : other.cell = pointer.cell
    · rw [last, cell, saved.below _ (by bv_omega) (by omega)]
    · rw [keep _ (by bv_omega) (by bv_omega), saved.pointers other (by bv_omega)]
  · intro address other small
    rw [keep _ other (by bv_omega), saved.below address other small]

/-- A call leaves a whole frame on the stack, and aims the pointers behind it and at the arguments. -/
theorem exists_call (returnAddress arguments : Word) :
    ∃ next, call returnAddress arguments memory = some ((), next) ∧ next.read 0 = memory.read 0 + 5 ∧
      next.read 1 = memory.read 0 + 5 ∧ next.read 2 = memory.read 0 - arguments ∧
      next.read (memory.read 0) = returnAddress ∧
      ∀ pointer : Pointer, next.read (memory.read 0 + pointer.cell) = memory.read pointer.cell := by
  obtain ⟨first, push₁, saved⟩ := exists_saved low high returnAddress
  obtain ⟨second, push₂, saved⟩ := saved.push low high .locals rfl
  obtain ⟨third, push₃, saved⟩ := saved.push low high .argument rfl
  obtain ⟨fourth, push₄, saved⟩ := saved.push low high .this rfl
  obtain ⟨fifth, push₅, saved⟩ := saved.push low high .that rfl
  obtain ⟨sixth, write₆, argument, keep₆⟩ :=
    exists_write (rfl : usable 2 = true) (fifth.read 0 - arguments - 5) fifth
  obtain ⟨last, write₇, locals, keep₇⟩ := exists_write (rfl : usable 1 = true) (fifth.read 0) sixth
  have stack : fifth.read 0 = memory.read 0 + 5 := saved.stack
  have kept : ∀ address, 256 ≤ address.toNat → last.read address = fifth.read address := fun address deep => by
    rw [keep₇ _ (ne_of_deep deep (by decide)), keep₆ _ (ne_of_deep deep (by decide))]
  refine ⟨last, ?_, ?_, ?_, ?_, ?_, ?_⟩
  · simp only [call, bind_eq_some_iff, read_eq_some_iff]
    exact ⟨_, _, push₁, _, _, ⟨rfl, rfl, rfl⟩, _, _, push₂, _, _, ⟨rfl, rfl, rfl⟩, _, _, push₃, _, _,
      ⟨rfl, rfl, rfl⟩, _, _, push₄, _, _, ⟨rfl, rfl, rfl⟩, _, _, push₅, _, _, ⟨rfl, rfl, rfl⟩, _, _, write₆,
      write₇⟩
  · rw [keep₇ _ (by decide), keep₆ _ (by decide), stack]
  · rw [locals, stack]
  · rw [keep₇ _ (by decide), argument, stack]
    bv_omega
  · rw [kept _ low, saved.returnAddress]
  · intro pointer
    have range := cell_range pointer
    rw [kept _ (by bv_omega), saved.pointers pointer (by bv_omega)]

end Call

section Return

variable {memory : Memory} (low : 256 ≤ (memory.read 2).toNat)
  (below : (memory.read 2).toNat + 5 ≤ (memory.read 1).toNat) (high : (memory.read 1).toNat ≤ 32767)

include low below high

/-- A return takes the pointers back against the order of their cells. -/
theorem Restored.write {middle : Memory} {least : Word} (restored : Restored memory middle least)
    (pointer : Pointer) (turn : least = pointer.cell + 1) :
    usable (memory.read 1 - (5 - pointer.cell)) = true ∧ ∃ next,
      Effect.write pointer.cell (middle.read (memory.read 1 - (5 - pointer.cell))) middle = some ((), next) ∧
        Restored memory next pointer.cell := by
  subst turn
  have range := cell_range pointer
  have source : memory.read 1 - (5 - pointer.cell) = memory.read 1 - 5 + pointer.cell := by bv_omega
  have deep : 256 ≤ (memory.read 1 - 5 + pointer.cell).toNat := by bv_omega
  have apart : memory.read 1 - 5 + pointer.cell ≠ memory.read 2 := by bv_omega
  have outside : memory.read 1 - 5 + pointer.cell ∉ [0, 1, 2, 3, 4, memory.read 2] := by
    simp only [List.mem_cons, List.not_mem_nil, or_false, not_or]
    have notLow : ∀ small : Word, small.toNat < 256 → memory.read 1 - 5 + pointer.cell ≠ small :=
      fun _ => ne_of_deep deep
    exact ⟨notLow _ (by decide), notLow _ (by decide), notLow _ (by decide), notLow _ (by decide),
      notLow _ (by decide), apart⟩
  rw [source]
  refine ⟨usable_of_deep deep (by bv_omega), ?_⟩
  obtain ⟨next, written, cell, keep⟩ := exists_write (usable_pointer pointer)
    (middle.read (memory.read 1 - 5 + pointer.cell)) middle
  refine ⟨next, written, ?_, ?_, ?_, ?_⟩
  · rw [keep 0 (by bv_omega), restored.stack]
  · rw [keep _ (by bv_omega), restored.result]
  · intro other late
    have otherRange := cell_range other
    by_cases last : other.cell = pointer.cell
    · rw [last, cell, restored.others _ outside]
    · rw [keep _ last, restored.pointers other (by bv_omega)]
  · intro address other
    rw [keep address, restored.others address other]
    rintro rfl
    cases pointer <;> simp [Pointer.cell] at other

omit high in
/-- A return whose frame lies above its arguments and below its stack stores the result and restores the
pointers. -/
theorem exists_ret (above : (memory.read 1).toNat < (memory.read 0).toNat)
    (room : (memory.read 0).toNat ≤ 32767) :
    ∃ next, ret memory = some (memory.read (memory.read 1 - 5), next) ∧ Restored memory next 1 := by
  have high : (memory.read 1).toNat ≤ 32767 := by omega
  have saved : usable (memory.read 1 - 5) = true := usable_of_deep (by bv_omega) (by bv_omega)
  have top : usable (memory.read 0 - 1) = true := usable_of_deep (by bv_omega) (by bv_omega)
  have apart : memory.read 0 - 1 ≠ 0 := by bv_omega
  obtain ⟨popped, write₁, -, keep₁⟩ := exists_write usable_zero (memory.read 0 - 1) memory
  have argument : popped.read 2 = memory.read 2 := keep₁ 2 (by decide)
  obtain ⟨handed, write₂, result, keep₂⟩ :=
    @exists_write (popped.read 2) (by rw [argument]; exact usable_of_deep low (by omega))
      (popped.read (memory.read 0 - 1)) popped
  obtain ⟨shorter, write₃, stack, keep₃⟩ := exists_write usable_zero (handed.read 2 + 1) handed
  have restored : Restored memory shorter 5 := by
    rw [argument] at result keep₂
    have deep : ∀ small : Word, small.toNat < 256 → memory.read 2 ≠ small := fun _ => ne_of_deep low
    refine ⟨?_, ?_, ?_, ?_⟩
    · rw [stack, keep₂ _ (deep _ (by decide)).symm, argument]
    · rw [keep₃ _ (deep _ (by decide)), result, keep₁ _ apart]
    · intro pointer late
      have range := cell_range pointer
      bv_omega
    · intro address outside
      simp only [List.mem_cons, List.not_mem_nil, or_false, not_or] at outside
      obtain ⟨zero, -, -, -, -, other⟩ := outside
      rw [keep₃ _ zero, keep₂ _ other, keep₁ _ zero]
  obtain ⟨that, first, write₄, restored⟩ := restored.write low below high .that rfl
  obtain ⟨this, second, write₅, restored⟩ := restored.write low below high .this rfl
  obtain ⟨arguments, third, write₆, restored⟩ := restored.write low below high .argument rfl
  obtain ⟨locals, last, write₇, restored⟩ := restored.write low below high .locals rfl
  refine ⟨last, ?_, restored⟩
  simp only [ret, pop, bind_eq_some_iff, read_eq_some_iff]
  exact ⟨_, _, ⟨rfl, rfl, rfl⟩, _, _, ⟨saved, rfl, rfl⟩,
    _, _, ⟨_, _, ⟨rfl, rfl, rfl⟩, _, _, write₁, top, rfl, rfl⟩, _, _, ⟨rfl, rfl, rfl⟩, _, _, write₂,
    _, _, ⟨rfl, rfl, rfl⟩, _, _, write₃, _, _, ⟨that, rfl, rfl⟩, _, _, write₄,
    _, _, ⟨this, rfl, rfl⟩, _, _, write₅, _, _, ⟨arguments, rfl, rfl⟩, _, _, write₆,
    _, _, ⟨locals, rfl, rfl⟩, _, _, write₇, rfl⟩

end Return

end Effect

namespace Memory

/-- How a call leaves the memory. On top of the stack are the address behind the call and the pointers of the
caller. -/
structure Framed (before after : Memory) (arguments : Word) (behind : Nat) : Prop where
  stack : after.read 0 = before.read 0 + 5
  locals : after.read 1 = before.read 0 + 5
  argument : after.read 2 = before.read 0 - arguments
  returnAddress : (after.read (before.read 0)).toNat = behind
  pointers : ∀ pointer : Pointer, after.read (before.read 0 + pointer.cell) = before.read pointer.cell

/-- The frame, and what tells where it is, are as a call left them. -/
structure SameFrame (called leaving : Memory) : Prop where
  locals : leaving.read 1 = called.read 1
  argument : leaving.read 2 = called.read 2
  frame : ∀ offset : Word, 1 ≤ offset → offset ≤ 5 →
    leaving.read (called.read 1 - offset) = called.read (called.read 1 - offset)

/-- How a call and the return from it leave the memory, which was `leaving` in front of the return. -/
structure Resumed (before leaving after : Memory) (arguments : Word) : Prop where
  stack : after.read 0 = before.read 0 - arguments + 1
  result : after.read (before.read 0 - arguments) = leaving.read (leaving.read 0 - 1)
  pointers : ∀ pointer : Pointer, after.read pointer.cell = before.read pointer.cell
  others : ∀ address, address ∉ [0, 1, 2, 3, 4, 13, 14, before.read 0 - arguments] →
    after.read address = leaving.read address

end Memory

namespace StackMachine

variable {machine : StackMachine} {image : Image} (loaded : machine.Loaded image)

include loaded

/-- The code of a call builds the frame. -/
theorem Loaded.call_frames {position target : Nat} {caller callee : Site} {name : String} {arguments : Word}
    (here : machine.sites[position]? = some caller) (calls : caller.command = .call name arguments)
    (there : machine.sites[target]? = some callee) (entered : callee.command.entered? = some name)
    {start : Cpu} (located : start.pc = machine.address position) (low : 256 ≤ (start.memory.read 0).toNat)
    (high : (start.memory.read 0).toNat + 5 ≤ 32767) :
    ∃ called, image.Reaches start called ∧ called.pc = machine.address target ∧
      start.memory.Framed called.memory arguments (machine.address (position + 1)) := by
  obtain ⟨next, effect, stack, locals, argument, saved, pointers⟩ := Effect.exists_call low high
    (BitVec.ofNat 16 (machine.address (position + 1))) arguments
  obtain ⟨called, reached, agrees, arrived⟩ :=
    loaded.call_simulated here located (Memory.Agrees.refl _) low calls effect there entered
  refine ⟨called, reached, arrived, ?_, ?_, ?_, ?_, ?_⟩
  · rw [agrees.read Effect.usable_zero, stack]
  · exact (agrees.read (Effect.usable_pointer .locals)).trans locals
  · exact (agrees.read (Effect.usable_pointer .argument)).trans argument
  · rw [agrees.read (Effect.usable_of_deep low (by omega)), saved, loaded.returnAddress_toNat here calls]
  · intro pointer
    have range := Effect.cell_range pointer
    rw [agrees.read (Effect.usable_of_deep (by bv_omega) (by bv_omega)), pointers]

/-- The code of a return takes a frame apart that a call built. -/
theorem Loaded.ret_resumes {last : Nat} {leave : Site} (here : machine.sites[last]? = some leave)
    (returns : leave.command = .ret) {leaving : Cpu} (located : leaving.pc = machine.address last)
    {before called : Memory} {arguments : Word} {behind : Nat} (framed : before.Framed called arguments behind)
    (low : 256 + arguments.toNat ≤ (before.read 0).toNat) (room : (before.read 0).toNat + 5 ≤ 32767)
    (same : called.SameFrame leaving.memory)
    (above : (called.read 1).toNat < (leaving.memory.read 0).toNat)
    (high : (leaving.memory.read 0).toNat ≤ 32767) :
    ∃ returned, image.Reaches leaving returned ∧ returned.pc = behind ∧
      before.Resumed leaving.memory returned.memory arguments := by
  have locals : leaving.memory.read 1 = before.read 0 + 5 := same.locals.trans framed.locals
  have argument : leaving.memory.read 2 = before.read 0 - arguments := same.argument.trans framed.argument
  have frame : ∀ offset : Word, offset.toNat < 5 →
      leaving.memory.read (before.read 0 + offset) = called.read (before.read 0 + offset) := by
    intro offset small
    have cell := same.frame (5 - offset) (by bv_omega) (by bv_omega)
    have place : before.read 0 + 5 - (5 - offset) = before.read 0 + offset := by bv_omega
    rwa [framed.locals, place] at cell
  rw [framed.locals] at above
  obtain ⟨next, effect, restored⟩ := @Effect.exists_ret leaving.memory (by rw [argument]; bv_omega)
    (by rw [argument, locals]; bv_omega) (by rw [locals]; exact above) high
  have code := loaded.codeAt here
  simp only [Site.code, returns] at code
  rw [← located] at code
  obtain ⟨returned, reached, agrees, arrived⟩ := code.ret_reaches loaded.holds.predefined (Memory.Agrees.refl _)
    (by bv_omega) effect
  refine ⟨returned, reached, ?_, ?_, ?_, ?_, ?_⟩
  · have first := frame 0#16 (by decide)
    rw [BitVec.add_zero] at first
    rw [arrived, locals, BitVec.add_sub_cancel, first, framed.returnAddress]
  · rw [agrees.read Effect.usable_zero, restored.stack, argument]
  · rw [← argument, agrees.read (Effect.usable_of_deep (by bv_omega) (by bv_omega)), restored.result]
  · intro pointer
    have range := Effect.cell_range pointer
    rw [agrees.read (Effect.usable_pointer pointer), restored.pointers pointer (by bv_omega), locals,
      BitVec.add_sub_cancel, frame _ (by omega), framed.pointers]
  · intro address outside
    simp only [List.mem_cons, List.not_mem_nil, or_false, not_or, ← argument] at outside
    obtain ⟨zero, one, two, three, four, scratch, other, result⟩ := outside
    rw [agrees address scratch other, restored.others]
    simp only [List.mem_cons, List.not_mem_nil, or_false, not_or]
    exact ⟨zero, one, two, three, four, result⟩

end StackMachine

/-- A call reaches its callee with a frame on the stack, and every return that finds this frame gets behind the
call. -/
theorem call_return_round_trip {options : BuildOptions} {sources : List (String × String)}
    {units : List SourceUnit} {lines : List Line} {image : Image}
    (solid : ∀ source ∈ sources, Text.Solid source.1.toList)
    (read : sources.mapM (fun (name, source) => SourceUnit.ofSource name source) = .ok units)
    (linked : linkSources options sources = .ok lines)
    (assembled : Image.assemble (lines.map Line.render) = .ok image)
    {position target : Nat} {caller callee : Site} {name : String} {arguments locals : Word}
    (here : (Site.ofUnits units)[position]? = some caller) (calls : caller.command = .call name arguments)
    (there : (Site.ofUnits units)[target]? = some callee) (defines : callee.command = .function name locals)
    {start : Cpu} (located : start.pc = (StackMachine.ofProgram options units image).address position)
    (low : 256 + arguments.toNat ≤ (start.memory.read 0).toNat)
    (high : (start.memory.read 0).toNat + 5 ≤ 32767) :
    let machine := StackMachine.ofProgram options units image
    ∃ entry called, image.addressOf name = .ok entry ∧ entry.toNat = machine.address target ∧
      image.Reaches start called ∧ called.pc = entry.toNat ∧
      start.memory.Framed called.memory arguments (machine.address (position + 1)) ∧
      ∀ (last : Nat) (leave : Site) (leaving : Cpu), (Site.ofUnits units)[last]? = some leave →
        leave.command = .ret → leaving.pc = machine.address last → called.memory.SameFrame leaving.memory →
        (called.memory.read 1).toNat < (leaving.memory.read 0).toNat → (leaving.memory.read 0).toNat ≤ 32767 →
        ∃ returned, image.Reaches leaving returned ∧ returned.pc = machine.address (position + 1) ∧
          start.memory.Resumed leaving.memory returned.memory arguments := by
  intro machine
  have wellNamed := SourceUnit.ofSources_wellNamed read solid
  rw [linkSources, read] at linked
  have loaded : machine.Loaded image :=
    StackMachine.ofProgram_loaded (fun unit member => (wellNamed unit member).1)
      (fun unit member => (wellNamed unit member).2) linked assembled
  have entered : callee.command.entered? = some name := by rw [defines]; rfl
  obtain ⟨entry, bound, address⟩ := loaded.function_bound there entered
  obtain ⟨called, reached, arrived, framed⟩ :=
    loaded.call_frames here calls there entered located (by omega) high
  refine ⟨entry, called, by rw [Image.addressOf, bound], address, reached, arrived.trans address.symm, framed, ?_⟩
  intro last leave leaving place returns located same above room
  exact loaded.ret_resumes place returns located framed low high same above room

/-- A function that calls itself without arguments. -/
def recursiveSources : List (String × String) := [("Main", "function Main.f 0\ncall Main.f 0\nreturn")]

/-- A call without arguments, where the result takes the place of the return address, and the return from
it. -/
theorem round_trip_recursiveSources :
    ∃ units lines image, ∃ start called leaving returned : Cpu,
      recursiveSources.mapM (fun (name, source) => SourceUnit.ofSource name source) = .ok units ∧
      linkSources {} recursiveSources = .ok lines ∧ Image.assemble (lines.map Line.render) = .ok image ∧
      start.pc = (StackMachine.ofProgram {} units image).address 1 ∧ start.memory.read 0 = 256 ∧
      image.Reaches start called ∧ called.pc = (StackMachine.ofProgram {} units image).address 0 ∧
      leaving.pc = (StackMachine.ofProgram {} units image).address 2 ∧ called.memory.SameFrame leaving.memory ∧
      image.Reaches leaving returned ∧ returned.pc = (StackMachine.ofProgram {} units image).address 2 ∧
      returned.memory.read 0 = 257 ∧
      returned.memory.read 256 = leaving.memory.read (leaving.memory.read 0 - 1) := by
  have solid : ∀ source ∈ recursiveSources, Text.Solid source.1.toList := by
    rw [recursiveSources, List.forall_mem_singleton]
    exact IsIdentifier.solid (by decide)
  obtain ⟨units, read, sites⟩ := @Runs.exists_of_any _ _
    (recursiveSources.mapM fun (name, source) => SourceUnit.ofSource name source)
    (fun units => Site.ofUnits units = [⟨"Main", none, 0, .function "Main.f" 0⟩,
      ⟨"Main", some "Main.f", 0, .call "Main.f" 0⟩, ⟨"Main", some "Main.f", 1, .ret⟩]) (by decide +kernel)
  have sites := of_decide_eq_true sites
  obtain ⟨lines, linked, assembles⟩ := @Runs.exists_of_any _ _ (linkSources {} recursiveSources)
    (fun lines => (Image.assemble (lines.map Line.render)).toOption.any fun _ => true) (by decide +kernel)
  obtain ⟨image, assembled, -⟩ := Runs.exists_of_any assembles
  have top : Memory.read (Memory.write (Vector.replicate memorySize 0) 0 256) 0 = 256 :=
    Memory.read_write_self _ Effect.zero_bound _
  generalize Memory.write (Vector.replicate memorySize 0) 0 256 = memory at top
  obtain ⟨entry, called, -, address, reached, arrived, framed, returns⟩ :=
    @call_return_round_trip _ _ _ _ _ solid read linked assembled 1 0 _ _ _ _ _ (by rw [sites]; rfl) rfl
      (by rw [sites]; rfl) rfl { memory, pc := (StackMachine.ofProgram {} units image).address 1 } rfl
      (by rw [top]; decide) (by rw [top]; decide)
  have locals : called.memory.read 1 = 261 := by rw [framed.locals, top]; rfl
  have stack : (called.memory.write 0 262).read 0 = 262 := Memory.read_write_self _ Effect.zero_bound _
  have same : called.memory.SameFrame (called.memory.write 0 262) := by
    refine ⟨Memory.read_write_of_ne _ (by decide) _, Memory.read_write_of_ne _ (by decide) _, ?_⟩
    intro offset _ small
    rw [Memory.read_write_of_ne]
    rw [locals]
    bv_omega
  obtain ⟨returned, back, behind, resumed⟩ := returns 2 _
    { memory := called.memory.write 0 262, pc := (StackMachine.ofProgram {} units image).address 2 }
    (by rw [sites]; rfl) rfl rfl same (by rw [locals, stack]; decide) (by rw [stack]; decide)
  have result := resumed.result
  rw [top] at result
  refine ⟨units, lines, image, _, called, _, returned, read, linked, assembled, rfl, top, reached,
    arrived.trans address, rfl, same, back, behind, ?_, result⟩
  rw [resumed.stack, top]
  rfl

end HackVM
