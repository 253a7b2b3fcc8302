import HackVM.Proofs.Execution

/-! # Runs in slices

`Image.after?` is the machine after a number of instructions. A run with a limit passes through these states and
stops at the limit, at the end of the program, or in front of an instruction that would touch a cell beyond the
memory, whichever comes first. Where it stops does not depend on how the instructions are divided among runs, and a
run up to a label stops at the first of these states that stands at the label.
-/

namespace HackVM

/-- How a run ends: at the end of the program, at its limit, or at an instruction that cannot be executed. -/
inductive Ending where
  | finished
  | stillRunning
  | outOfBounds
deriving DecidableEq, Repr

/-- The outcome of a run with a limit that ends in some way in some state. -/
def Ending.outcome (limit : Nat) (final : Cpu) : Ending → Outcome
  | finished => .ok () final
  | stillRunning => .error (.stillRunning limit) final
  | outOfBounds => .error .outOfBounds final

private theorem Ending.outcome_inj {limit : Nat} {first second : Cpu} {ending other : Ending}
    (same : ending.outcome limit first = other.outcome limit second) : ending = other ∧ first = second := by
  cases ending <;> cases other <;> cases same <;> exact ⟨rfl, rfl⟩

namespace Image

/-- The machine after a number of instructions, if it can execute that many. -/
def after? (image : Image) : Nat → Cpu → Option Cpu
  | 0, cpu => some cpu
  | count + 1, cpu =>
    match image.instructions[cpu.pc]? with
    | none => none
    | some instruction =>
      match cpu.execute instruction with
      | .ok _ next => image.after? count next
      | .error _ _ => none

/-- The machine stands in front of an instruction that it cannot execute. -/
def Faults (image : Image) (cpu : Cpu) : Prop :=
  ∃ instruction, image.instructions[cpu.pc]? = some instruction ∧ cpu.execute instruction = .error .outOfBounds cpu

/-- At the end of the program, in front of an instruction that cannot be executed, or before a step. -/
theorem steps_cases (image : Image) (cpu : Cpu) :
    image.instructions[cpu.pc]? = none ∨ image.Faults cpu ∨ ∃ next, image.Steps cpu next := by
  cases fetched : image.instructions[cpu.pc]? with
  | none => exact .inl rfl
  | some instruction =>
    cases executed : cpu.execute instruction with
    | ok value next => exact .inr (.inr ⟨next, instruction, fetched, executed⟩)
    | error fault stopped =>
      obtain ⟨rfl, rfl⟩ := Cpu.execute_eq_error executed
      exact .inr (.inl ⟨instruction, fetched, executed⟩)

section Step

variable {image : Image} {cpu next : Cpu} (step : image.Steps cpu next)

include step

private theorem Steps.after? (count : Nat) : image.after? (count + 1) cpu = image.after? count next := by
  obtain ⟨instruction, fetched, executed⟩ := step
  simp only [Image.after?, fetched, executed]

theorem Steps.runSteps (limit steps : Nat) :
    image.runSteps limit (steps + 1) cpu = image.runSteps limit steps next := by
  obtain ⟨instruction, fetched, executed⟩ := step
  simp only [Image.runSteps, fetched, executed]

end Step

/-- A machine that has executed an instruction has made a step. -/
theorem exists_steps_of_after? {image : Image} {cpu state : Cpu} {count : Nat}
    (reached : image.after? (count + 1) cpu = some state) :
    ∃ next, image.Steps cpu next ∧ image.after? count next = some state := by
  obtain ended | ⟨instruction, fetched, executed⟩ | ⟨next, step⟩ := image.steps_cases cpu
  · simp [after?, ended] at reached
  · simp [after?, fetched, executed] at reached
  · exact ⟨next, step, by rwa [← step.after? count]⟩

section Reached

variable {image : Image} {cpu state : Cpu} {count : Nat} (reached : image.after? count cpu = some state)

include reached

/-- Executing more instructions goes on from the state reached. -/
theorem after?_add (more : Nat) : image.after? (count + more) cpu = image.after? more state := by
  induction count generalizing cpu with
  | zero =>
    cases reached
    rw [Nat.zero_add]
  | succ count ih =>
    obtain ⟨next, step, later⟩ := exists_steps_of_after? reached
    rw [Nat.add_right_comm, step.after?, ih later]

/-- A run goes on from the state reached with the steps that are left. -/
theorem runSteps_add (limit steps : Nat) :
    image.runSteps limit (count + steps) cpu = image.runSteps limit steps state := by
  induction count generalizing cpu with
  | zero =>
    cases reached
    rw [Nat.zero_add]
  | succ count ih =>
    obtain ⟨next, step, later⟩ := exists_steps_of_after? reached
    rw [Nat.add_right_comm, step.runSteps, ih later]

/-- Where the program ends, no machine gets any further. -/
theorem le_of_ended (ended : image.instructions[state.pc]? = none) {other : Nat} {far : Cpu}
    (reachedToo : image.after? other cpu = some far) : other ≤ count := by
  by_contra beyond
  obtain ⟨rest, rfl⟩ := Nat.exists_eq_add_of_lt (Nat.lt_of_not_le beyond)
  rw [Nat.add_assoc, after?_add reached] at reachedToo
  simp [after?, ended] at reachedToo

end Reached

/-- A run with a number of steps ends in some way in some state. -/
def Ends (image : Image) (steps : Nat) (cpu : Cpu) : Ending → Cpu → Prop
  | .finished, final => ∃ count < steps, image.after? count cpu = some final ∧ image.instructions[final.pc]? = none
  | .stillRunning, final => image.after? steps cpu = some final
  | .outOfBounds, final => ∃ count < steps, image.after? count cpu = some final ∧ image.Faults final

/-- A step in front of a run leaves the way in which it ends. -/
theorem Ends.step {image : Image} {steps : Nat} {cpu next final : Cpu} {ending : Ending}
    (step : image.Steps cpu next) (ends : image.Ends steps next ending final) :
    image.Ends (steps + 1) cpu ending final := by
  cases ending with
  | stillRunning => exact (step.after? steps).trans ends
  | finished | outOfBounds =>
    obtain ⟨count, early, reached, stopped⟩ := ends
    exact ⟨count + 1, by omega, (step.after? count).trans reached, stopped⟩

/-- Every run ends in one of the three ways. -/
theorem exists_ends (image : Image) (steps : Nat) (cpu : Cpu) : ∃ ending final, image.Ends steps cpu ending final := by
  induction steps generalizing cpu with
  | zero => exact ⟨.stillRunning, cpu, rfl⟩
  | succ steps ih =>
    obtain ended | faults | ⟨next, step⟩ := image.steps_cases cpu
    · exact ⟨.finished, cpu, 0, by omega, rfl, ended⟩
    · exact ⟨.outOfBounds, cpu, 0, by omega, rfl, faults⟩
    · obtain ⟨ending, final, ends⟩ := ih next
      exact ⟨ending, final, ends.step step⟩

/-- The outcome of a run tells how and where it ends, whatever limit is told. -/
theorem Ends.runSteps_eq {image : Image} {steps : Nat} {cpu final : Cpu} {ending : Ending}
    (ends : image.Ends steps cpu ending final) (limit : Nat) :
    image.runSteps limit steps cpu = ending.outcome limit final := by
  cases ending with
  | stillRunning => exact runSteps_add ends limit 0
  | finished =>
    obtain ⟨count, early, reached, ended⟩ := ends
    obtain ⟨rest, rfl⟩ := Nat.exists_eq_add_of_lt early
    rw [Nat.add_assoc, runSteps_add reached, runSteps, ended]
    rfl
  | outOfBounds =>
    obtain ⟨count, early, reached, instruction, fetched, executed⟩ := ends
    obtain ⟨rest, rfl⟩ := Nat.exists_eq_add_of_lt early
    rw [Nat.add_assoc, runSteps_add reached, runSteps, fetched]
    simp only [executed, Ending.outcome]

private theorem run_eq_outcome_iff {image : Image} {limit : Nat} {cpu final : Cpu} {ending : Ending} :
    image.run limit cpu = ending.outcome limit final ↔ image.Ends limit cpu ending final := by
  constructor
  · intro ran
    obtain ⟨other, stopped, ends⟩ := image.exists_ends limit cpu
    obtain ⟨rfl, rfl⟩ := Ending.outcome_inj (ran.symm.trans (ends.runSteps_eq limit))
    exact ends
  · exact fun ends => ends.runSteps_eq limit

/-- After a number of instructions the machine stands at an address, and it has not stood there before. -/
structure FirstAt (image : Image) (stop count : Nat) (cpu final : Cpu) : Prop where
  reached : image.after? count cpu = some final
  there : final.pc = stop
  first : ∀ earlier < count, ∃ state, image.after? earlier cpu = some state ∧ state.pc ≠ stop

section FirstAt

variable {image : Image} {stop count : Nat} {cpu next final : Cpu}

private theorem firstAt_zero_iff : image.FirstAt stop 0 cpu final ↔ cpu = final ∧ cpu.pc = stop := by
  constructor
  · rintro ⟨reached, there, -⟩
    cases reached
    exact ⟨rfl, there⟩
  · rintro ⟨rfl, there⟩
    exact ⟨rfl, there, by simp⟩

/-- A machine that arrives later stands elsewhere and makes a step. -/
theorem FirstAt.exists_steps (arrival : image.FirstAt stop (count + 1) cpu final) :
    cpu.pc ≠ stop ∧ ∃ next, image.Steps cpu next ∧ image.FirstAt stop count next final := by
  obtain ⟨next, step, reached⟩ := exists_steps_of_after? arrival.reached
  constructor
  · obtain ⟨state, same, elsewhere⟩ := arrival.first 0 (by omega)
    cases same
    exact elsewhere
  · refine ⟨next, step, reached, arrival.there, fun earlier before => ?_⟩
    rw [← step.after?]
    exact arrival.first (earlier + 1) (by omega)

theorem FirstAt.step (step : image.Steps cpu next) (elsewhere : cpu.pc ≠ stop)
    (arrival : image.FirstAt stop count next final) : image.FirstAt stop (count + 1) cpu final := by
  refine ⟨(step.after? count).trans arrival.reached, arrival.there, fun earlier before => ?_⟩
  cases earlier with
  | zero => exact ⟨cpu, rfl, elsewhere⟩
  | succ earlier =>
    rw [step.after?]
    exact arrival.first earlier (by omega)

end FirstAt

/-- A run up to an address stops where the machine stands at the address for the first time. -/
theorem runStepsUntil_eq_ok_iff {image : Image} {label : String} {stop limit steps : Nat} {cpu final : Cpu} :
    image.runStepsUntil label stop limit steps cpu = .ok () final ↔
      ∃ count < steps, image.FirstAt stop count cpu final := by
  induction steps generalizing cpu with
  | zero => simp [runStepsUntil]
  | succ steps ih =>
    by_cases here : cpu.pc = stop
    · rw [runStepsUntil, if_pos here]
      constructor
      · intro same
        cases same
        exact ⟨0, by omega, firstAt_zero_iff.mpr ⟨rfl, here⟩⟩
      · rintro ⟨_ | count, -, arrival⟩
        · rw [(firstAt_zero_iff.mp arrival).1]
        · exact absurd here arrival.exists_steps.1
    -- A machine that stands elsewhere has to make a step.
    have moves : (∃ count < steps + 1, image.FirstAt stop count cpu final) ↔
        ∃ next, image.Steps cpu next ∧ ∃ count < steps, image.FirstAt stop count next final := by
      constructor
      · rintro ⟨_ | count, early, arrival⟩
        · exact absurd (firstAt_zero_iff.mp arrival).2 here
        · obtain ⟨-, next, step, arrival⟩ := arrival.exists_steps
          exact ⟨next, step, count, by omega, arrival⟩
      · rintro ⟨next, step, count, early, arrival⟩
        exact ⟨count + 1, by omega, arrival.step step here⟩
    rw [moves, runStepsUntil, if_neg here]
    cases fetched : image.instructions[cpu.pc]? with
    | none => simp [Steps, fetched]
    | some instruction =>
      cases executed : cpu.execute instruction with
      | ok value next => simp [Steps, fetched, executed, ih]
      | error fault stopped => simp [Steps, fetched, executed]

private theorem runUntil_eq_ok_iff {image : Image} {label : String} {limit : Nat} {cpu final : Cpu} :
    image.runUntil label limit cpu = .ok () final ↔
      ∃ address, image.addressOf label = .ok address ∧
        ∃ count < limit, image.FirstAt address.toNat count cpu final := by
  rw [runUntil]
  cases image.addressOf label with
  | error fault => simp
  | ok address => simp [runStepsUntil_eq_ok_iff]

end Image

/-- How the runs of a machine fit together. -/
structure Image.Slices (image : Image) (cpu : Cpu) : Prop where
  /-- A run that is still going can be cut there: the rest ends as the whole does. -/
  cut : ∀ (early late : Nat) (middle : Cpu), image.run early cpu = .error (.stillRunning early) middle →
    ∃ (ending : Ending) (final : Cpu), image.run late middle = ending.outcome late final ∧
      image.run (early + late) cpu = ending.outcome (early + late) final
  /-- A run that finishes needs a number of steps, and finishes with any more. -/
  finish : ∀ (limit : Nat) (final : Cpu), image.run limit cpu = .ok () final →
    ∃ needed, image.after? needed cpu = some final ∧
      image.run needed cpu = .error (.stillRunning needed) final ∧
      ∀ other, image.run other cpu = .ok () final ↔ needed < other
  /-- An instruction that cannot be executed changes nothing. -/
  fault : ∀ (instruction : Instruction) (fault : Fault) (stopped : Cpu),
    cpu.execute instruction = .error fault stopped → fault = .outOfBounds ∧ stopped = cpu
  /-- Where a run stops at such an instruction, further runs stop again. -/
  again : ∀ (limit : Nat) (stopped : Cpu), image.run limit cpu = .error .outOfBounds stopped →
    (∃ count < limit, image.after? count cpu = some stopped ∧ image.Faults stopped) ∧
      ∀ again, 0 < again → image.run again stopped = .error .outOfBounds stopped
  /-- A run up to a label stops where the label is met first, and so does every longer one. -/
  arrival : ∀ (label : String) (limit : Nat) (final : Cpu), image.runUntil label limit cpu = .ok () final →
    ∃ address, image.addressOf label = .ok address ∧
      (∃ count < limit, image.FirstAt address.toNat count cpu final) ∧
      ∀ larger, limit ≤ larger → image.runUntil label larger cpu = .ok () final

/-- Where a run stops does not depend on how its steps are divided. -/
theorem runs_slice_anywhere (image : Image) (cpu : Cpu) : image.Slices cpu where
  cut early late middle ran := by
    have reached : image.Ends early cpu .stillRunning middle := Image.run_eq_outcome_iff.mp ran
    obtain ⟨ending, final, ends⟩ := image.exists_ends late middle
    refine ⟨ending, final, Image.run_eq_outcome_iff.mpr ends, ?_⟩
    rw [Image.run, Image.runSteps_add reached, ends.runSteps_eq]
  finish limit final ran := by
    obtain ⟨needed, -, reached, ended⟩ : image.Ends limit cpu .finished final := Image.run_eq_outcome_iff.mp ran
    have running : image.Ends needed cpu .stillRunning final := reached
    refine ⟨needed, reached, Image.run_eq_outcome_iff.mpr running, fun other => ?_⟩
    constructor
    · intro finished
      obtain ⟨count, early, reachedToo, -⟩ : image.Ends other cpu .finished final :=
        Image.run_eq_outcome_iff.mp finished
      have least := Image.le_of_ended reachedToo ended reached
      omega
    · intro early
      have ends : image.Ends other cpu .finished final := ⟨needed, early, reached, ended⟩
      exact Image.run_eq_outcome_iff.mpr ends
  fault _ _ _ failed := Cpu.execute_eq_error failed
  again limit stopped ran := by
    have ends : image.Ends limit cpu .outOfBounds stopped := Image.run_eq_outcome_iff.mp ran
    obtain ⟨-, -, -, faults⟩ := id ends
    refine ⟨ends, fun again some => ?_⟩
    have repeated : image.Ends again stopped .outOfBounds stopped := ⟨0, some, rfl, faults⟩
    exact Image.run_eq_outcome_iff.mpr repeated
  arrival label limit final ran := by
    obtain ⟨address, found, count, early, arrival⟩ := Image.runUntil_eq_ok_iff.mp ran
    refine ⟨address, found, ⟨count, early, arrival⟩, fun larger more => ?_⟩
    exact Image.runUntil_eq_ok_iff.mpr ⟨address, found, count, by omega, arrival⟩

end HackVM
