import HackVM.Proofs.Offences
import HackVM.Proofs.UniqueLabels

/-! # Sessions of a generator

A generator may be used in any order: for commands that succeed or fail, for further units, with comments or without,
and for the opening call more than once. Whatever happens, its label counter never goes back, no label is forgotten,
the only labels that are added are those of the command at hand, and all names in the table of static variables are
names of static variables.
-/

namespace HackVM

/-- A use of a generator. -/
inductive Action where
  | command (command : Command)
  | enterUnit (unit : String)
  | annotate (wanted : Bool)
  | bootstrap (entry : String)

/-- The generator that a step leaves behind, whether it fails or not. -/
def Lowering.reached {α : Type} (step : Lowering α) (generator : Generator) : Generator :=
  match step generator with
  | .ok _ next => next
  | .error _ stopped => stopped

/-- The generator after a use. -/
def Generator.after (generator : Generator) : Action → Generator
  | .command command => (Lowering.command command).reached generator
  | .enterUnit unit => generator.enterUnit unit
  | .annotate wanted => { generator with annotate := wanted }
  | .bootstrap entry => (generator.bootstrap entry).2

/-- A use of a generator, and the generator before it. -/
structure Moment where
  generator : Generator
  action : Action

/-- The uses of a generator one after the other. -/
def Generator.moments (generator : Generator) : List Action → List Moment
  | [] => []
  | action :: rest => ⟨generator, action⟩ :: (generator.after action).moments rest

/-- The labels that a use can define. -/
def Moment.labels (moment : Moment) : List String :=
  match moment.action with
  | .command command => (moment.generator.site command).labels
  | .bootstrap _ => [Label.generated Generator.bootstrapOwner .returnPoint moment.generator.returnNumber]
  | .enterUnit _ | .annotate _ => []

/-- A generator has moved on to another one, with no other labels added than those that are named. -/
structure Generator.GrowsTo (earlier later : Generator) (names : List String) : Prop where
  counter : earlier.counter.next ≤ later.counter.next
  keeps : ∀ name, earlier.defined.contains name = true → later.defined.contains name = true
  adds : ∀ name, later.defined.contains name = true → earlier.defined.contains name = true ∨ name ∈ names
  uses : ∀ name, later.statics.contains name = true →
    earlier.statics.contains name = true ∨ ∃ unit index, name = staticSymbol unit index

namespace Generator

variable {earlier middle later generator : Generator} {names others : List String}

/-- The tables do not depend on the unit, the function and the wish for comments. -/
theorem GrowsTo.of_tables (counter : earlier.counter.next ≤ later.counter.next)
    (defined : later.defined = earlier.defined) (statics : later.statics = earlier.statics) :
    earlier.GrowsTo later names := by
  refine ⟨counter, ?_, ?_, ?_⟩
  · intro name known
    rwa [defined]
  · intro name known
    rw [defined] at known
    exact .inl known
  · intro name known
    rw [statics] at known
    exact .inl known

theorem GrowsTo.refl (generator : Generator) : generator.GrowsTo generator names :=
  .of_tables (Nat.le_refl _) rfl rfl

theorem GrowsTo.trans (first : earlier.GrowsTo middle names) (second : middle.GrowsTo later others) :
    earlier.GrowsTo later (names ++ others) := by
  refine ⟨Nat.le_trans first.counter second.counter, ?_, ?_, ?_⟩
  · intro name known
    exact second.keeps name (first.keeps name known)
  · intro name known
    rw [List.mem_append]
    rcases second.adds name known with known | added
    · exact (first.adds name known).imp_right .inl
    · exact .inr (.inr added)
  · intro name known
    rcases second.uses name known with known | static
    · exact first.uses name known
    · exact .inr static

theorem GrowsTo.mono (grows : earlier.GrowsTo later names) (within : names ⊆ others) :
    earlier.GrowsTo later others :=
  ⟨grows.counter, grows.keeps, fun name known => (grows.adds name known).imp_right (within ·), grows.uses⟩

/-- The generator with its next label number taken. -/
def numbered (generator : Generator) : Generator := { generator with counter := generator.counter.take.2 }

private theorem growsTo_numbered : generator.GrowsTo generator.numbered [] :=
  .of_tables (Nat.le_succ _) rfl rfl

/-- Defining a label adds one name. -/
theorem growsTo_insert (name : String) :
    generator.GrowsTo { generator with defined := generator.defined.insert name } [name] := by
  refine ⟨Nat.le_refl _, ?_, ?_, fun _ => .inl⟩
  · intro other known
    exact (NameSet.contains_insert_iff ..).mpr (.inl known)
  · intro other known
    rw [List.mem_singleton]
    exact (NameSet.contains_insert_iff ..).mp known

end Generator

namespace Lowering

variable {α β : Type} {generator : Generator} {names others : List String}

/-- A step and another after it. If the first fails, the second is not reached. -/
theorem growsTo_bind {step : Lowering α} {next : α → Lowering β}
    (first : generator.GrowsTo (step.reached generator) names)
    (second : ∀ value middle, step generator = .ok value middle →
      middle.GrowsTo ((next value).reached middle) others) :
    generator.GrowsTo ((step >>= next).reached generator) (names ++ others) := by
  unfold reached at *
  cases ran : step generator with
  | error fault stopped =>
    simp only [ran] at first
    simp only [bind, EStateM.bind, ran]
    exact first.mono (List.subset_append_left ..)
  | ok value middle =>
    simp only [ran] at first
    simp only [bind, EStateM.bind, ran]
    exact first.trans (second value middle ran)

private theorem reached_bind_pure (step : Lowering α) (value : α → β) (generator : Generator) :
    (do return value (← step)).reached generator = step.reached generator := by
  unfold reached
  cases ran : step generator with
  | error fault stopped => simp only [bind, EStateM.bind, ran]
  | ok result middle =>
    simp only [bind, EStateM.bind, ran]
    rfl

/-- A label that cannot be defined leaves everything as it is. -/
theorem define_eq_error {name : String} {stopped : Generator} {fault : LoweringError}
    (failed : define name generator = .error fault stopped) :
    stopped = generator ∧
      (generator.statics.contains name = true ∧ fault = .staticClash name ∨
        generator.defined.contains name = true ∧ fault = .duplicateLabel name) := by
  rw [define] at failed
  split_ifs at failed with static taken
  · cases failed
    exact ⟨rfl, .inl ⟨static, rfl⟩⟩
  · cases failed
    exact ⟨rfl, .inr ⟨taken, rfl⟩⟩

private theorem define_growsTo (name : String) : generator.GrowsTo ((define name).reached generator) [name] := by
  rw [reached]
  cases ran : define name generator with
  | error fault stopped =>
    obtain ⟨rfl, -⟩ := define_eq_error ran
    exact .refl _
  | ok value next =>
    obtain ⟨rfl, -⟩ := define_eq_ok ran
    exact Generator.growsTo_insert name

/-- Locating an entry changes no more than the table of static variables, whether it succeeds or not. -/
theorem locate_reached (segment : Segment) (index : Word) :
    (locate segment index).reached generator =
      { generator with statics := (generator.statics.resolve generator.unit segment index).2 } := by
  rw [reached, locate]
  cases located : (generator.statics.resolve generator.unit segment index).1 with
  | error fault => simp only [located]
  | ok location =>
    cases location with
    | direct name =>
      simp only [located]
      split_ifs <;> rfl
    | immediate value | indirect base offset => simp only [located]

private theorem locate_growsTo (segment : Segment) (index : Word) :
    generator.GrowsTo ((locate segment index).reached generator) [] := by
  rw [locate_reached]
  refine ⟨Nat.le_refl _, fun _ => id, fun _ => .inl, ?_⟩
  intro name known
  simp only [StaticTable.resolve] at known
  split_ifs at known
  · rw [StaticTable.record, StaticTable.contains, NameSet.contains_insert_iff] at known
    exact known.imp_right fun same => ⟨_, _, same⟩
  · exact .inl known

/-- Define several labels, one after the other. -/
def defineAll : List String → Lowering Unit
  | [] => pure ()
  | name :: rest => do
    define name
    defineAll rest

private theorem defineAll_growsTo (names : List String) :
    generator.GrowsTo ((defineAll names).reached generator) names := by
  induction names generalizing generator with
  | nil => exact .refl _
  | cons name rest ih => exact growsTo_bind (define_growsTo name) fun _ _ _ => ih

/-- Labels that can be defined one after the other are no labels before and are labels then. -/
theorem defineAll_eq_ok {names : List String} {result : Unit} {next : Generator}
    (success : defineAll names generator = .ok result next) :
    ∀ name ∈ names, ¬ generator.defined.contains name = true ∧ next.defined.contains name = true := by
  induction names generalizing generator with
  | nil => simp
  | cons name rest ih =>
    obtain ⟨_, middle, first, success⟩ := Runs.state_bind_eq_ok_iff.mp success
    have later := ih success
    have grows : middle.GrowsTo ((defineAll rest).reached middle) rest := defineAll_growsTo rest
    rw [reached, success] at grows
    obtain ⟨rfl, -, free⟩ := define_eq_ok first
    intro other member
    rcases List.mem_cons.mp member with rfl | member
    · exact ⟨free, grows.keeps other ((NameSet.contains_insert_iff ..).mpr (.inr rfl))⟩
    · obtain ⟨free, known⟩ := later other member
      exact ⟨fun taken => free ((NameSet.contains_insert_iff ..).mpr (.inl taken)), known⟩

/-- Where no static variable is in the way, distinct labels are refused only for one that is a label before. -/
theorem defineAll_eq_error {names : List String} {fault : LoweringError} {stopped : Generator}
    (distinct : names.Nodup) (apart : ∀ name ∈ names, ¬ generator.statics.contains name = true)
    (failed : defineAll names generator = .error fault stopped) :
    ∃ name ∈ names, generator.defined.contains name = true ∧ fault = .duplicateLabel name := by
  induction names generalizing generator with
  | nil => contradiction
  | cons name rest ih =>
    obtain ⟨new, distinct⟩ := List.nodup_cons.mp distinct
    obtain ⟨here, apart⟩ := List.forall_mem_cons.mp apart
    rcases Runs.state_bind_eq_error_iff.mp failed with failed | ⟨_, middle, first, failed⟩
    · obtain ⟨-, static | taken⟩ := define_eq_error failed
      · exact absurd static.1 here
      · exact ⟨name, List.mem_cons_self .., taken⟩
    · obtain ⟨same, -⟩ := define_eq_ok first
      have apartLater : ∀ name ∈ rest, ¬ middle.statics.contains name = true := by
        rw [same]
        exact apart
      obtain ⟨other, member, taken, rfl⟩ := ih distinct apartLater failed
      refine ⟨other, List.mem_cons_of_mem _ member, ?_, rfl⟩
      rw [same] at taken
      rcases (NameSet.contains_insert_iff ..).mp taken with taken | rfl
      · exact taken
      · exact absurd member new

/-- A command that takes a number takes it first, which cannot fail, and then defines its labels. -/
theorem code_eq_numbered {command : Command} (takes : command.takesNumber = true)
    (fits : command.operandFault? = none) :
    code command generator =
      (do defineAll (generator.site command).labels
          return (generator.site command).code) generator.numbered := by
  cases command with
  | arithmetic operator =>
    cases operator with
    | eq | gt | lt =>
      simp only [Generator.site, Site.labels, defineAll, bind_assoc, pure_bind]
      rfl
    | add | sub | and | or | neg | not => contradiction
  | call name arguments =>
    rw [Command.operandFault?] at fits
    split_ifs at fits with large
    have small : ¬ maxArguments < arguments := large
    rw [code, call, if_neg small]
    simp only [Generator.site, Site.labels, defineAll, bind_assoc, pure_bind]
    rfl
  | push segment index | pop segment index | label name | goto name | ifGoto name | function name locals | ret =>
    contradiction

/-- A command that takes a number leaves it behind, also if one of its labels cannot be defined. -/
theorem numbered_growsTo_code {command : Command} (takes : command.takesNumber = true)
    (fits : command.operandFault? = none) :
    generator.numbered.GrowsTo ((code command).reached generator) (generator.site command).labels := by
  rw [reached, code_eq_numbered takes fits, ← reached, reached_bind_pure]
  exact defineAll_growsTo _

/-- A command defines no other labels than its own. -/
theorem code_growsTo (command : Command) :
    generator.GrowsTo ((code command).reached generator) (generator.site command).labels := by
  cases command with
  | arithmetic operator =>
    cases operator with
    | eq | gt | lt => exact Generator.growsTo_numbered.trans (numbered_growsTo_code rfl rfl)
    | add | sub | and | or | neg | not => exact .refl _
  | push segment index =>
    rw [code, push, reached_bind_pure]
    exact locate_growsTo segment index
  | pop segment index =>
    rw [code, pop]
    split_ifs
    · exact .refl _
    · dsimp only
      refine growsTo_bind (locate_growsTo segment index) fun location middle _ => ?_
      cases location <;> exact .refl _
  | label name =>
    have defines : generator.GrowsTo ((define (generator.labelName name)).reached generator) _ := define_growsTo _
    exact growsTo_bind defines fun _ _ _ => .refl _
  | function name locals =>
    refine growsTo_bind (define_growsTo name) fun _ middle _ => ?_
    exact .of_tables (Nat.le_refl _) rfl rfl
  | call name arguments =>
    by_cases large : maxArguments < arguments
    · rw [code, call, if_pos large]
      exact .refl _
    · exact Generator.growsTo_numbered.trans (numbered_growsTo_code rfl (if_neg large))
  | goto name | ifGoto name | ret => exact .refl _

/-- A command that succeeds defines its labels, which are no labels before. -/
theorem code_defines {command : Command} {lines : List Line} {next : Generator}
    (success : code command generator = .ok lines next) :
    ∀ name ∈ (generator.site command).labels,
      ¬ generator.defined.contains name = true ∧ next.defined.contains name = true := by
  have fits := (code_lowers success).admitted.operandFault?
  have one : ∀ {name : String} {result : Unit} {middle : Generator}, define name generator = .ok result middle →
      ∀ other ∈ [name], ¬ generator.defined.contains other = true ∧ middle.defined.contains other = true := by
    intro name result middle defined other member
    obtain ⟨rfl, -, free⟩ := define_eq_ok defined
    obtain rfl := List.mem_singleton.mp member
    exact ⟨free, (NameSet.contains_insert_iff ..).mpr (.inr rfl)⟩
  cases takes : command.takesNumber with
  | true =>
    rw [code_eq_numbered takes fits] at success
    obtain ⟨_, middle, defined, success⟩ := Runs.state_bind_eq_ok_iff.mp success
    cases success
    have defines := defineAll_eq_ok defined
    exact defines
  | false =>
    cases command with
    | label name =>
      obtain ⟨same, _, ran, success⟩ := Runs.state_bind_eq_ok_iff.mp success
      cases ran
      obtain ⟨_, middle, defined, success⟩ := Runs.state_bind_eq_ok_iff.mp success
      cases success
      exact one defined
    | function name locals =>
      obtain ⟨_, middle, defined, success⟩ := Runs.state_bind_eq_ok_iff.mp success
      cases success
      have defines := one defined
      exact defines
    | arithmetic operator => cases operator <;> simp_all [Command.takesNumber, Site.labels, Generator.site]
    | call name arguments => contradiction
    | push segment index | pop segment index | goto name | ifGoto name | ret => simp [Site.labels, Generator.site]

/-- The comment in front of its code changes nothing. -/
theorem command_reached (command : Command) :
    (Lowering.command command).reached generator = (code command).reached generator := by
  unfold reached Lowering.command
  cases ran : code command generator with
  | error fault stopped => simp only [bind, EStateM.bind, ran]
  | ok lines next =>
    simp only [bind, EStateM.bind, ran]
    rfl

theorem command_eq_error_iff {command : Command} {fault : LoweringError} {stopped : Generator} :
    Lowering.command command generator = .error fault stopped ↔ code command generator = .error fault stopped := by
  unfold Lowering.command
  cases ran : code command generator with
  | error other left => simp only [bind, EStateM.bind, ran]
  | ok lines next =>
    simp only [bind, EStateM.bind, ran]
    constructor
    · intro failed
      contradiction
    · intro failed
      contradiction

end Lowering

/-- Each use of a generator moves it on, with no other labels added than those of the use. -/
theorem Generator.after_growsTo (generator : Generator) (action : Action) :
    generator.GrowsTo (generator.after action) (Moment.labels ⟨generator, action⟩) := by
  cases action with
  | command command =>
    rw [after, Lowering.command_reached]
    exact Lowering.code_growsTo command
  | enterUnit unit => exact .of_tables (Nat.le_refl _) rfl rfl
  | annotate wanted => exact .of_tables (Nat.le_refl _) rfl rfl
  | bootstrap entry =>
    have reached := generator.returnNumber_least.1
    have counted : generator.GrowsTo { generator with counter := ⟨generator.returnNumber + 1⟩ } [] :=
      .of_tables (by simp only; omega) rfl rfl
    exact counted.trans (Generator.growsTo_insert _)

/-- What every use of a generator keeps, with the uses so far, holds before each use. -/
theorem Generator.moments_invariant (holds : List Moment → Generator → Prop)
    (kept : ∀ past generator action, holds past generator →
      holds (past ++ [⟨generator, action⟩]) (generator.after action))
    {generator : Generator} {past : List Moment} (initial : holds past generator) {actions : List Action}
    {earlier later : List Moment} {moment : Moment}
    (split : generator.moments actions = earlier ++ moment :: later) :
    holds (past ++ earlier) moment.generator := by
  induction actions generalizing generator past earlier with
  | nil => simp [moments] at split
  | cons action rest ih =>
    rw [moments] at split
    cases earlier with
    | nil =>
      obtain ⟨rfl, -⟩ := List.cons.inj split
      rwa [List.append_nil]
    | cons first earlier =>
      obtain ⟨rfl, tails⟩ := List.cons.inj split
      have reached := ih (kept past generator action initial) tails
      rwa [List.append_assoc] at reached

end HackVM
