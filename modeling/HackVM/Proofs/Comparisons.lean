import HackVM.Proofs.Simulation

/-! # Comparisons and the signed order

A comparison goes by the sign of a difference that is reduced to a word. This does not affect equality. The
order is that of the signed numbers where their difference fits a word, and the opposite one where it does
not.
-/

namespace HackVM

/-- What a comparison asks of the lower and the upper operand as signed numbers. -/
def Operator.relation? : Operator → Option (Int → Int → Bool)
  | .eq => some fun lower upper => lower = upper
  | .gt => some fun lower upper => upper < lower
  | .lt => some fun lower upper => lower < upper
  | .add | .sub | .neg | .and | .or | .not => none

/-- The answer of a comparison. Where the difference does not fit a word, the operands are taken the other way
round. -/
def Word.compare (relation : Int → Int → Bool) (lower upper : Word) : Bool :=
  if -32768 ≤ lower.toInt - upper.toInt ∧ lower.toInt - upper.toInt ≤ 32767 then
    relation lower.toInt upper.toInt
  else relation upper.toInt lower.toInt

/-- A difference that does not fit a word has the opposite sign. -/
theorem Word.sign_difference (lower upper : Word) :
    let difference :=
      if -32768 ≤ lower.toInt - upper.toInt ∧ lower.toInt - upper.toInt ≤ 32767 then lower.toInt - upper.toInt
      else upper.toInt - lower.toInt
    (0 < (lower - upper).toInt ↔ 0 < difference) ∧ ((lower - upper).toInt < 0 ↔ difference < 0) := by
  have := lower.toInt_lt
  have := lower.le_toInt
  have := upper.toInt_lt
  have := upper.le_toInt
  simp only [BitVec.toInt_sub, Int.bmod_def]
  split_ifs <;> omega

/-- The code of a comparison branches on the difference. -/
theorem Site.comparison_of_relation? {site : Site} {operator : Operator} {relation : Int → Int → Bool}
    (command : site.command = .arithmetic operator) (means : operator.relation? = some relation) :
    ∃ condition, site.code = site.comparison condition ∧
      ∀ lower upper : Word, condition.holds (lower - upper) = Word.compare relation lower upper := by
  rw [Site.code, command]
  cases operator with
  | eq =>
    cases means
    refine ⟨.eq, rfl, fun lower upper => ?_⟩
    obtain ⟨positive, negative⟩ := Word.sign_difference lower upper
    rw [Jump.holds, Word.compare]
    split_ifs at positive negative ⊢ <;> rw [decide_eq_decide] <;> omega
  | gt =>
    cases means
    refine ⟨.gt, rfl, fun lower upper => ?_⟩
    obtain ⟨positive, -⟩ := Word.sign_difference lower upper
    rw [Jump.holds, Word.compare]
    split_ifs at positive ⊢ <;> rw [decide_eq_decide] <;> omega
  | lt =>
    cases means
    refine ⟨.lt, rfl, fun lower upper => ?_⟩
    obtain ⟨-, negative⟩ := Word.sign_difference lower upper
    rw [Jump.holds, Word.compare]
    split_ifs at negative ⊢ <;> rw [decide_eq_decide] <;> omega
  | add | sub | neg | and | or | not => contradiction

/-- The code of a comparison puts the answer in place of the operands and leads to the next command. -/
theorem StackMachine.Loaded.comparison_answers {machine : StackMachine} {image : Image}
    (loaded : machine.Loaded image) {position : Nat} {site : Site} (here : machine.sites[position]? = some site)
    {cpu : Cpu} (located : cpu.pc = machine.address position) {operator : Operator}
    {relation : Int → Int → Bool} (command : site.command = .arithmetic operator)
    (means : operator.relation? = some relation) (low : 258 ≤ (cpu.memory.read 0).toNat)
    (high : (cpu.memory.read 0).toNat ≤ memorySize) :
    ∃ after, image.Reaches cpu after ∧ after.pc = machine.address (position + 1) ∧
      after.memory = (cpu.memory.write 0 (cpu.memory.read 0 - 1)).write (cpu.memory.read 0 - 1 - 1)
        (Effect.truth (Word.compare relation (cpu.memory.read (cpu.memory.read 0 - 1 - 1))
          (cpu.memory.read (cpu.memory.read 0 - 1)))) := by
  obtain ⟨condition, same, answers⟩ := Site.comparison_of_relation? command means
  have code := loaded.codeAt here
  have size := address_succ here
  rw [same] at code size
  rw [← located] at code size
  obtain ⟨after, reached, memory, behind⟩ := code.comparison_leads loaded.holds.predefined (by bv_omega)
    (by bv_omega) (by bv_omega) (by bv_omega)
  refine ⟨after, reached, behind.trans size.symm, ?_⟩
  rw [memory, answers]

/-- A comparison leaves one word, which tells the signed order unless the difference of the operands does not fit a
word. -/
theorem comparison_answers_signed_order {options : BuildOptions} {sources : List (String × String)}
    {units : List SourceUnit} {lines : List Line} {image : Image}
    (built : image.BuiltFrom options sources units lines) {position : Nat} {site : Site} {operator : Operator}
    {relation : Int → Int → Bool} (here : (Site.ofUnits units)[position]? = some site)
    (command : site.command = .arithmetic operator) (means : operator.relation? = some relation) {start : Cpu}
    (located : start.pc = (StackMachine.ofProgram options units image).address position)
    (low : 258 ≤ (start.memory.read 0).toNat) (high : (start.memory.read 0).toNat ≤ 32767) :
    ∃ after, image.Reaches start after ∧
      after.pc = (StackMachine.ofProgram options units image).address (position + 1) ∧
      after.memory.read 0 = start.memory.read 0 - 1 ∧
      after.memory.read (after.memory.read 0 - 1) =
        Effect.truth (Word.compare relation (start.memory.read (start.memory.read 0 - 2))
          (start.memory.read (start.memory.read 0 - 1))) := by
  obtain ⟨after, reached, arrived, memory⟩ := built.loaded.comparison_answers here located command means low
    (Nat.le_succ_of_le high)
  have second : start.memory.read 0 - 1 - 1 = start.memory.read 0 - 2 := by bv_omega
  have inside : (start.memory.read 0 - 2).toNat < memorySize := Nat.lt_succ_of_le (by bv_omega)
  rw [second] at memory
  have stack : after.memory.read 0 = start.memory.read 0 - 1 := by
    rw [memory, Memory.read_write_of_ne _ (by bv_omega), Memory.read_write_self _ Effect.zero_bound]
  refine ⟨after, reached, arrived, stack, ?_⟩
  rw [stack, second, memory, Memory.read_write_self _ inside]

/-- A program of one comparison. -/
def greaterSources : List (String × String) := [("Main", "gt")]

/-- The sources of one comparison are built. -/
theorem exists_builtFrom_greaterSources :
    ∃ image units lines, Image.BuiltFrom image {} greaterSources units lines ∧
      Site.ofUnits units = [⟨"Main", none, 0, .arithmetic .gt⟩] := by
  apply Image.BuiltFrom.exists_of_any
  · rw [greaterSources, List.forall_mem_singleton]
    exact IsIdentifier.solid (by decide)
  · decide +kernel
  · decide +kernel

/-- To a comparison, the least number is greater than one. -/
theorem comparison_answers_greaterSources :
    ∃ image units lines, Image.BuiltFrom image {} greaterSources units lines ∧ ∃ start after : Cpu,
      start.pc = (StackMachine.ofProgram {} units image).address 0 ∧ start.memory.read 0 = 258 ∧
      start.memory.read 256 = -32768 ∧ start.memory.read 257 = 1 ∧ image.Reaches start after ∧
      after.pc = (StackMachine.ofProgram {} units image).address 1 ∧ after.memory.read 0 = 257 ∧
      after.memory.read 256 = -1 := by
  obtain ⟨image, units, lines, built, sites⟩ := exists_builtFrom_greaterSources
  obtain ⟨memory, holds⟩ := @Memory.exists_holding [(0, 258), (256, -32768), (257, 1)] (by decide)
    (by simp [memorySize])
  have top : memory.read 0 = 258 := holds (0, 258) (by decide)
  have lower : memory.read 256 = -32768 := holds (256, -32768) (by decide)
  have upper : memory.read 257 = 1 := holds (257, 1) (by decide)
  obtain ⟨after, reached, arrived, stack, answer⟩ := @comparison_answers_signed_order _ _ _ _ _ built 0 _ _ _
    (by rw [sites]; rfl) rfl rfl
    { memory, pc := (StackMachine.ofProgram {} units image).address 0 } rfl
    (by rw [top]; decide) (by rw [top]; decide)
  rw [top] at stack answer
  rw [stack] at answer
  refine ⟨image, units, lines, built, _, after, rfl, top, lower, upper, reached, arrived, stack, ?_⟩
  refine answer.trans ?_
  rw [show (258 : Word) - 2 = 256 by decide, show (258 : Word) - 1 = 257 by decide, lower, upper]
  decide

/-- The greatest number is greater than minus one, and the answer is zero. -/
theorem greatest_not_greater :
    ∃ image units lines, Image.BuiltFrom image {} greaterSources units lines ∧ ∃ start : Cpu,
      start.pc = (StackMachine.ofProgram {} units image).address 0 ∧ start.memory.read 0 = 258 ∧
      start.memory.read 256 = 32767 ∧ start.memory.read 257 = -1 ∧
      (∃ after, image.Reaches start after ∧ after.pc = (StackMachine.ofProgram {} units image).address 1) ∧
      ∀ after, image.Reaches start after → after.pc = (StackMachine.ofProgram {} units image).address 1 →
        after.memory.read 0 = 257 ∧ after.memory.read 256 = 0 := by
  obtain ⟨image, units, lines, built, sites⟩ := exists_builtFrom_greaterSources
  obtain ⟨memory, holds⟩ := @Memory.exists_holding [(0, 258), (256, 32767), (257, -1)] (by decide)
    (by simp [memorySize])
  have top : memory.read 0 = 258 := holds (0, 258) (by decide)
  have lower : memory.read 256 = 32767 := holds (256, 32767) (by decide)
  have upper : memory.read 257 = -1 := holds (257, -1) (by decide)
  refine ⟨image, units, lines, built, { memory, pc := (StackMachine.ofProgram {} units image).address 0 },
    rfl, top, lower, upper, ?_⟩
  obtain ⟨final, reached, arrived, answer⟩ := @StackMachine.Loaded.comparison_answers _ _ built.loaded 0 _
    (by rw [StackMachine.ofProgram, sites]; rfl) { memory, pc := _ } rfl _ _ rfl rfl
    (by rw [top]; decide) (by rw [top]; decide)
  refine ⟨⟨final, reached, arrived⟩, fun after other place => ?_⟩
  -- The comparison is the whole program, so nothing is executed behind it.
  have ended : image.instructions[(StackMachine.ofProgram {} units image).address 1]? = none := by
    rw [Array.getElem?_eq_none_iff, built.loaded.holds.size, StackMachine.address, StackMachine.ofProgram, sites]
    rfl
  obtain rfl := other.eq_of_ended reached (by rw [place, ended]) (by rw [arrived, ended])
  rw [answer]
  simp only [top, show (258 : Word) - 1 = 257 by decide, show (257 : Word) - 1 = 256 by decide, lower, upper]
  refine ⟨?_, ?_⟩
  · rw [Memory.read_write_of_ne _ (by decide), Memory.read_write_self _ (by decide)]
  · rw [Memory.read_write_self _ (by decide)]
    decide

end HackVM
