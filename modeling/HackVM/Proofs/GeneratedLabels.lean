import HackVM.Proofs.Sessions
import HackVM.Proofs.StaticCells

/-! # Generated labels

The name of a generated label ends in a mark and a number, so that the label's owner, purpose and number can be told
from it, whatever marks and digits the owner's name has, and no static variable has such a name. A number that was
taken is never taken again, also if the command that took it fails. So in every session of a generator the generated
labels differ from each other and from all static variables, and a comparison or a call in range is refused for one
reason only: a function or a label of the source has the name of one of its labels.
-/

namespace HackVM

namespace Label

private theorem Purpose.name_injective {first second : Purpose} (same : first.name = second.name) : first = second := by
  revert same
  cases first <;> cases second <;> decide

/-- The name of a generated label tells its owner, its purpose and its number. -/
theorem generated_inj {owner other : String} {purpose role : Purpose} {number count : Nat} :
    generated owner purpose number = generated other role count ↔
      owner = other ∧ purpose = role ∧ number = count := by
  have noMark : ∀ number : Nat, '_' ∉ number.repr.toList.reverse := by
    intro number member
    exact absurd (isDigit_of_mem_repr (List.mem_reverse.mp member)) (by decide)
  have noColon : ∀ purpose : Purpose, ':' ∉ purpose.name.toList.reverse := by
    intro purpose
    cases purpose <;> decide
  constructor
  · intro same
    -- Read backwards, the name is cut at its first `_`, and the rest at its first `:`.
    have texts := congrArg (fun name => Text.cut? '_' name.toList.reverse) same
    simp only [generated, String.toList_append, List.reverse_append] at texts
    rw [show "_".toList.reverse = ['_'] from rfl, List.singleton_append, List.singleton_append,
      Text.cut?_append (noMark number), Text.cut?_append (noMark count)] at texts
    simp only [Option.some.injEq, Prod.mk.injEq, List.reverse_inj, String.toList_inj] at texts
    obtain ⟨numbers, texts⟩ := texts
    replace texts := congrArg (Text.cut? ':') texts
    rw [show ":".toList.reverse = [':'] from rfl, List.singleton_append, List.singleton_append,
      Text.cut?_append (noColon purpose), Text.cut?_append (noColon role)] at texts
    simp only [Option.some.injEq, Prod.mk.injEq, List.reverse_inj, String.toList_inj] at texts
    exact ⟨texts.2, Purpose.name_injective texts.1, repr_injective numbers⟩
  · rintro ⟨rfl, rfl, rfl⟩
    rfl

/-- A generated label has a `_` in front of its number, and a static variable a dot. -/
theorem generated_ne_staticSymbol (owner : String) (purpose : Purpose) (number : Nat) (unit : String) (index : Word) :
    generated owner purpose number ≠ staticSymbol unit index := by
  intro same
  have digits : ∀ number : Nat, ∀ c ∈ number.repr.toList.reverse, c.isDigit = true := by
    intro number c member
    exact isDigit_of_mem_repr (List.mem_reverse.mp member)
  have texts := congrArg (fun name => name.toList.reverse.dropWhile Char.isDigit) same
  simp only [generated, staticSymbol, Word.decimal, String.toList_append, List.reverse_append] at texts
  rw [List.dropWhile_append_of_pos (digits number), List.dropWhile_append_of_pos (digits index.toNat)] at texts
  simp at texts

end Label

namespace Moment

/-- The names that the generator makes up in a use of it. A call with too many arguments fails before that. -/
def generated (moment : Moment) : List String :=
  match moment.action with
  | .command command =>
    if command.takesNumber = true ∧ command.operandFault? = none then (moment.generator.site command).labels else []
  | .bootstrap _ =>
    (List.range' moment.generator.counter.next
      (moment.generator.returnNumber + 1 - moment.generator.counter.next)).map
      (Label.generated Generator.bootstrapOwner .returnPoint)
  | .enterUnit _ | .annotate _ => []

/-- A function or a label of the source has been defined by a name. -/
def Declares (moment : Moment) (name : String) : Prop :=
  ∃ command lines next, moment.action = .command command ∧
    Lowering.command command moment.generator = .ok lines next ∧
    ((∃ locals, command = .function name locals) ∨
      ∃ own, command = .label own ∧ name = moment.generator.labelName own)

private theorem generated_of_command {moment : Moment} {command : Command} (here : moment.action = .command command)
    (takes : command.takesNumber = true) (fits : command.operandFault? = none) :
    moment.generated = (moment.generator.site command).labels := by
  rw [generated, here]
  exact if_pos ⟨takes, fits⟩

/-- The labels of a command that takes a number carry it. -/
theorem labels_of_takesNumber {generator : Generator} {command : Command} (takes : command.takesNumber = true)
    {name : String} (member : name ∈ (generator.site command).labels) :
    ∃ purpose, name = Label.generated generator.unit purpose generator.counter.next := by
  rcases Site.label_cases member with generated | ⟨own, label, -⟩ | ⟨locals, function⟩
  · exact generated
  · rw [show command = .label own from label] at takes
    contradiction
  · rw [show command = .function name locals from function] at takes
    contradiction

private theorem labels_nodup_of_takesNumber {generator : Generator} {command : Command}
    (takes : command.takesNumber = true) :
    (generator.site command).labels.Nodup := by
  cases command with
  | arithmetic operator =>
    cases operator with
    | eq | gt | lt =>
      rw [Site.labels, Generator.site]
      simp [Site.generated, Label.generated_inj]
    | add | sub | and | or | neg | not => contradiction
  | call name arguments => exact List.nodup_singleton _
  | push segment index | pop segment index | label name | goto name | ifGoto name | function name locals | ret =>
    contradiction

/-- A name that is made up has a number from the counter on, and the counter is past it afterwards. -/
theorem generated_numbered {moment : Moment} {name : String} (member : name ∈ moment.generated) :
    ∃ owner purpose number, name = Label.generated owner purpose number ∧
      moment.generator.counter.next ≤ number ∧ number < (moment.generator.after moment.action).counter.next := by
  obtain ⟨generator, action⟩ := moment
  cases action with
  | command command =>
    simp only [generated] at member
    split_ifs at member with made
    · obtain ⟨purpose, rfl⟩ := labels_of_takesNumber made.1 member
      refine ⟨_, purpose, _, rfl, Nat.le_refl _, ?_⟩
      rw [Generator.after, Lowering.command_reached]
      exact (Lowering.numbered_growsTo_code made.1 made.2).counter
    · contradiction
  | bootstrap entry =>
    obtain ⟨number, within, rfl⟩ := List.mem_map.mp member
    rw [List.mem_range'_1] at within
    refine ⟨_, _, number, rfl, within.1, ?_⟩
    dsimp only at within
    change number < generator.returnNumber + 1
    omega
  | enterUnit unit => contradiction
  | annotate wanted => contradiction

private theorem generated_nodup (moment : Moment) : moment.generated.Nodup := by
  obtain ⟨generator, action⟩ := moment
  cases action with
  | command command =>
    simp only [generated]
    split_ifs with made
    · exact labels_nodup_of_takesNumber made.1
    · exact List.nodup_nil
  | bootstrap entry => exact (List.nodup_range' ..).map fun _ _ same => (Label.generated_inj.mp same).2.2
  | enterUnit unit => exact List.nodup_nil
  | annotate wanted => exact List.nodup_nil

end Moment

namespace Generator

/-- The names that are made up in a session have numbers from its first on. -/
theorem moments_numbered {generator : Generator} {actions : List Action} {name : String}
    (member : name ∈ (generator.moments actions).flatMap Moment.generated) :
    ∃ owner purpose number, name = Label.generated owner purpose number ∧ generator.counter.next ≤ number := by
  induction actions generalizing generator with
  | nil => contradiction
  | cons action rest ih =>
    rw [moments, List.flatMap_cons, List.mem_append] at member
    rcases member with here | later
    · obtain ⟨owner, purpose, number, same, reached, -⟩ := Moment.generated_numbered here
      exact ⟨owner, purpose, number, same, reached⟩
    · obtain ⟨owner, purpose, number, same, reached⟩ := ih later
      exact ⟨owner, purpose, number, same, Nat.le_trans (generator.after_growsTo action).counter reached⟩

/-- No name is made up twice in a session. -/
theorem moments_generated_nodup (generator : Generator) (actions : List Action) :
    ((generator.moments actions).flatMap Moment.generated).Nodup := by
  induction actions generalizing generator with
  | nil => exact List.nodup_nil
  | cons action rest ih =>
    rw [moments, List.flatMap_cons]
    refine (Moment.generated_nodup _).append (ih _) ?_
    intro name here later
    obtain ⟨_, _, number, rfl, -, below⟩ := Moment.generated_numbered here
    obtain ⟨_, _, count, same, above⟩ := moments_numbered later
    obtain ⟨-, -, rfl⟩ := Label.generated_inj.mp same
    exact absurd below (Nat.not_lt.mpr above)

end Generator

/-- A command that takes a number passes too many arguments, or its operands are in range. -/
theorem Lowering.numbered_cases {command : Command} (takes : command.takesNumber = true) :
    (∃ name arguments, command = .call name arguments ∧ maxArguments < arguments) ∨
      command.operandFault? = none := by
  cases command with
  | call name arguments =>
    by_cases large : maxArguments < arguments
    · exact .inl ⟨name, arguments, rfl, large⟩
    · exact .inr (if_neg large)
  | arithmetic operator => exact .inr rfl
  | push segment index | pop segment index | label name | goto name | ifGoto name | function name locals | ret =>
    contradiction

/-- A command whose labels are not made up is a function, a label, or a call with too many arguments. -/
theorem Lowering.plain_cases {command : Command} {generator : Generator} {name : String}
    (plain : ¬ (command.takesNumber = true ∧ command.operandFault? = none))
    (member : name ∈ (generator.site command).labels) :
    (∃ locals, command = .function name locals) ∨
      (∃ own, command = .label own ∧ name = generator.labelName own) ∨
      ∃ callee arguments, command = .call callee arguments ∧ maxArguments < arguments := by
  cases command with
  | function own locals =>
    obtain rfl := List.mem_singleton.mp member
    exact .inl ⟨locals, rfl⟩
  | label own => exact .inr (.inl ⟨own, rfl, List.mem_singleton.mp member⟩)
  | call callee arguments =>
    have takes : (Command.call callee arguments).takesNumber = true := rfl
    rcases numbered_cases takes with large | fits
    · exact .inr (.inr large)
    · exact absurd ⟨takes, fits⟩ plain
  | arithmetic operator =>
    cases operator with
    | eq | gt | lt => exact absurd ⟨rfl, rfl⟩ plain
    | add | sub | and | or | neg | not => contradiction
  | push segment index | pop segment index | goto own | ifGoto own | ret => contradiction

/-- Such a command leaves everything as it is if it fails. -/
theorem Lowering.eq_of_plain_error {command : Command} {generator stopped : Generator} {fault : LoweringError}
    {name : String} (plain : ¬ (command.takesNumber = true ∧ command.operandFault? = none))
    (member : name ∈ (generator.site command).labels) (failed : code command generator = .error fault stopped) :
    stopped = generator := by
  rcases plain_cases plain member with ⟨locals, rfl⟩ | ⟨own, rfl, -⟩ | ⟨callee, arguments, rfl, large⟩
  · rcases Runs.state_bind_eq_error_iff.mp failed with failed | ⟨_, next, -, failed⟩
    · exact (define_eq_error failed).1
    · contradiction
  · rcases Runs.state_bind_eq_error_iff.mp failed with failed | ⟨_, middle, ran, failed⟩
    · contradiction
    cases ran
    rcases Runs.state_bind_eq_error_iff.mp failed with failed | ⟨_, next, -, failed⟩
    · exact (define_eq_error failed).1
    · contradiction
  · rw [code, call, if_pos large] at failed
    cases failed
    rfl

namespace Moment

/-- Such a command declares its label if it succeeds. -/
theorem declares_of_plain_ok {generator next : Generator} {command : Command} {lines : List Line} {name : String}
    (plain : ¬ (command.takesNumber = true ∧ command.operandFault? = none))
    (member : name ∈ (generator.site command).labels)
    (success : Lowering.command command generator = .ok lines next) :
    Declares ⟨generator, .command command⟩ name := by
  refine ⟨command, lines, next, rfl, success, ?_⟩
  rcases Lowering.plain_cases plain member with function | label | ⟨callee, arguments, rfl, large⟩
  · exact .inl function
  · exact .inr label
  · have fits := (Lowering.command_lowers success).1.admitted
    exact absurd large (BitVec.not_lt.mpr fits)

/-- A label is known from before, or declared by the last use, or made up in it. -/
theorem defined_cases {generator : Generator} {action : Action} {name : String}
    (known : (generator.after action).defined.contains name = true) :
    generator.defined.contains name = true ∨ Declares ⟨generator, action⟩ name ∨
      name ∈ generated ⟨generator, action⟩ := by
  rcases (generator.after_growsTo action).adds name known with earlier | added
  · exact .inl earlier
  cases action with
  | command command =>
    by_cases made : command.takesNumber = true ∧ command.operandFault? = none
    · refine .inr (.inr ?_)
      rw [generated_of_command rfl made.1 made.2]
      exact added
    cases ran : Lowering.command command generator with
    | ok lines next => exact .inr (.inl (declares_of_plain_ok made added ran))
    | error fault stopped =>
      have same := Lowering.eq_of_plain_error made added (Lowering.command_eq_error_iff.mp ran)
      rw [Generator.after, Lowering.reached, ran, same] at known
      exact .inl known
  | bootstrap entry =>
    refine .inr (.inr ?_)
    obtain rfl := List.mem_singleton.mp added
    have reached := generator.returnNumber_least.1
    refine List.mem_map_of_mem (List.mem_range'_1.mpr ⟨reached, ?_⟩)
    dsimp only
    omega
  | enterUnit unit => contradiction
  | annotate wanted => contradiction

theorem Declares.defined {generator : Generator} {action : Action} {name : String}
    (declares : Declares ⟨generator, action⟩ name) : (generator.after action).defined.contains name = true := by
  obtain ⟨command, lines, next, rfl, success, own⟩ := declares
  have member : name ∈ (generator.site command).labels := by
    rcases own with ⟨locals, rfl⟩ | ⟨own, rfl, rfl⟩
    · exact List.mem_singleton_self _
    · exact List.mem_singleton_self _
  obtain ⟨code, middle, lowered, ran⟩ := Runs.state_bind_eq_ok_iff.mp success
  have known := (Lowering.code_defines lowered name member).2
  rw [Generator.after, Lowering.command_reached, Lowering.reached, lowered]
  exact known

end Moment

/-- What a generator's tables hold after a session. -/
structure Generator.Knows (generator : Generator) (past : List Moment) : Prop where
  statics : ∀ name, generator.statics.contains name = true → ∃ unit index, name = staticSymbol unit index
  declared : ∀ moment ∈ past, ∀ name, moment.Declares name → generator.defined.contains name = true
  defined : ∀ name, generator.defined.contains name = true →
    (∃ moment ∈ past, moment.Declares name) ∨
      ∃ owner purpose number, name = Label.generated owner purpose number ∧ number < generator.counter.next

namespace Generator

variable {generator : Generator} {past : List Moment}

theorem knows_start (unit : String) (annotate : Bool) : Knows { unit, annotate } [] := by
  refine ⟨?_, ?_, ?_⟩
  · intro name used
    simp [StaticTable.contains] at used
  · simp
  · intro name known
    simp at known

/-- What one use adds to the tables. -/
theorem Knows.after (knows : generator.Knows past) (action : Action) :
    (generator.after action).Knows (past ++ [⟨generator, action⟩]) := by
  have grows := generator.after_growsTo action
  refine ⟨?_, ?_, ?_⟩
  · intro name used
    rcases grows.uses name used with earlier | static
    · exact knows.statics name earlier
    · exact static
  · intro moment member name declares
    rcases List.mem_append.mp member with earlier | last
    · exact grows.keeps name (knows.declared moment earlier name declares)
    · obtain rfl := List.mem_singleton.mp last
      exact declares.defined
  · intro name known
    rcases Moment.defined_cases known with earlier | declares | made
    · rcases knows.defined name earlier with ⟨moment, member, declares⟩ | ⟨owner, purpose, number, same, below⟩
      · exact .inl ⟨moment, List.mem_append_left _ member, declares⟩
      · exact .inr ⟨owner, purpose, number, same, Nat.lt_of_lt_of_le below grows.counter⟩
    · exact .inl ⟨_, List.mem_append_right _ (List.mem_singleton_self _), declares⟩
    · obtain ⟨owner, purpose, number, same, -, below⟩ := Moment.generated_numbered made
      exact .inr ⟨owner, purpose, number, same, below⟩

/-- What is known before each use in a session. -/
theorem knows_moments {unit : String} {annotate : Bool} {actions : List Action} {earlier later : List Moment}
    {moment : Moment} (split : Generator.moments { unit, annotate } actions = earlier ++ moment :: later) :
    moment.generator.Knows earlier :=
  moments_invariant (fun past generator => generator.Knows past) (fun _ _ action knows => knows.after action)
    (knows_start unit annotate) split

section Generated

variable {moment : Moment} (knows : moment.generator.Knows past)

include knows

/-- No name that is made up is in the table of static variables. -/
theorem Knows.generated_apart {name : String} (member : name ∈ moment.generated) :
    ¬ moment.generator.statics.contains name = true := by
  intro used
  obtain ⟨owner, purpose, number, rfl, -⟩ := Moment.generated_numbered member
  obtain ⟨unit, index, same⟩ := knows.statics _ used
  exact Label.generated_ne_staticSymbol _ _ _ _ _ same

/-- A name that is made up is a label already iff it was declared. -/
theorem Knows.generated_iff {name : String} (member : name ∈ moment.generated) :
    moment.generator.defined.contains name = true ↔ ∃ other ∈ past, other.Declares name := by
  constructor
  · intro known
    obtain ⟨owner, purpose, number, rfl, above, -⟩ := Moment.generated_numbered member
    rcases knows.defined _ known with declared | ⟨_, _, count, same, below⟩
    · exact declared
    · obtain ⟨-, -, rfl⟩ := Label.generated_inj.mp same
      exact absurd below (Nat.not_lt.mpr above)
  · rintro ⟨other, present, declares⟩
    exact knows.declared other present name declares

/-- A comparison or a call that succeeds defines the names that are made up for it, and none of them was declared. -/
theorem Knows.numbered_ok {command : Command} {lines : List Line} {next : Generator}
    (here : moment.action = .command command) (takes : command.takesNumber = true)
    (success : Lowering.command command moment.generator = .ok lines next) :
    Line.labels lines = moment.generated ∧
      ∀ name ∈ moment.generated, ¬ ∃ other ∈ past, other.Declares name := by
  obtain ⟨lowers, rfl⟩ := Lowering.command_lowers success
  have labels := Moment.generated_of_command here takes lowers.admitted.operandFault?
  refine ⟨?_, ?_⟩
  · rw [Site.labels_block, labels]
  · intro name member
    rw [← knows.generated_iff member]
    obtain ⟨code, middle, lowered, -⟩ := Runs.state_bind_eq_ok_iff.mp success
    rw [labels] at member
    exact (Lowering.code_defines lowered name member).1

/-- A comparison or a call that fails has too many arguments, or one of the names that are made up for it was
declared. -/
theorem Knows.numbered_error {command : Command} {fault : LoweringError} {stopped : Generator}
    (here : moment.action = .command command) (takes : command.takesNumber = true)
    (failed : Lowering.command command moment.generator = .error fault stopped) :
    (∃ name arguments, command = .call name arguments ∧ Lowering.maxArguments < arguments ∧
        fault = .tooManyArguments arguments Lowering.maxArguments) ∨
      ∃ name ∈ moment.generated, fault = .duplicateLabel name ∧ ∃ other ∈ past, other.Declares name := by
  rw [Lowering.command_eq_error_iff] at failed
  rcases Lowering.numbered_cases takes with ⟨name, arguments, rfl, large⟩ | fits
  · rw [Lowering.code, Lowering.call, if_pos large] at failed
    cases failed
    exact .inl ⟨name, arguments, rfl, large, rfl⟩
  · have labels := Moment.generated_of_command here takes fits
    rw [Lowering.code_eq_numbered takes fits] at failed
    rcases Runs.state_bind_eq_error_iff.mp failed with failed | ⟨_, _, -, failed⟩
    · rw [← labels] at failed
      have apart : ∀ name ∈ moment.generated, ¬ moment.generator.numbered.statics.contains name = true :=
        fun name => knows.generated_apart
      obtain ⟨name, member, taken, rfl⟩ := Lowering.defineAll_eq_error moment.generated_nodup apart failed
      exact .inr ⟨name, member, rfl, (knows.generated_iff member).mp taken⟩
    · contradiction

/-- The opening call passes over declared names only and takes the first that was not declared. -/
theorem Knows.bootstrap_passes {entry : String} (here : moment.action = .bootstrap entry) :
    ∃ passed, moment.generated = passed ++ Line.labels (moment.generator.bootstrap entry).1 ∧
      (∀ name ∈ passed, ∃ other ∈ past, other.Declares name) ∧
      ∀ name ∈ Line.labels (moment.generator.bootstrap entry).1, ¬ ∃ other ∈ past, other.Declares name := by
  let first := moment.generator.counter.next
  let last := moment.generator.returnNumber
  obtain ⟨reached, least⟩ := moment.generator.returnNumber_least
  have whole : moment.generated =
      (List.range' first (last - first)).map (Label.generated bootstrapOwner .returnPoint) ++
        Line.labels (moment.generator.bootstrap entry).1 := by
    rw [Moment.generated, here, labels_bootstrap]
    dsimp only
    rw [Nat.succ_sub reached, List.range'_1_concat, List.map_append, Nat.add_sub_of_le reached]
    rfl
  refine ⟨_, whole, ?_, ?_⟩
  · intro name passed
    have member : name ∈ moment.generated := whole ▸ List.mem_append_left _ passed
    obtain ⟨number, within, rfl⟩ := List.mem_map.mp passed
    rw [List.mem_range'_1] at within
    have taken := least number within.1 (by omega)
    rw [isTaken, Bool.or_eq_true] at taken
    exact (knows.generated_iff member).mp (taken.resolve_left (knows.generated_apart member))
  · intro name defined declared
    have member : name ∈ moment.generated := whole ▸ List.mem_append_right _ defined
    rw [labels_bootstrap, List.mem_singleton] at defined
    have known := (knows.generated_iff member).mpr declared
    apply moment.generator.returnNumber_free
    rw [← defined, isTaken, known, Bool.or_true]

end Generated

end Generator

/-- In every session no label is generated twice, none is the name of a static variable, and only labels of the
source stand in the way. -/
theorem generated_labels_never_collide (unit : String) (annotate : Bool) (actions : List Action) :
    let moments := Generator.moments { unit, annotate } actions
    (moments.flatMap Moment.generated).Nodup ∧
      (∀ name ∈ moments.flatMap Moment.generated, ∀ owner index, name ≠ staticSymbol owner index) ∧
      ∀ earlier moment later, moments = earlier ++ moment :: later →
        (∀ command, moment.action = .command command → command.takesNumber = true →
          (∀ lines next, Lowering.command command moment.generator = .ok lines next →
            Line.labels lines = moment.generated ∧
              ∀ name ∈ moment.generated, ¬ ∃ other ∈ earlier, other.Declares name) ∧
          ∀ fault stopped, Lowering.command command moment.generator = .error fault stopped →
            (∃ name arguments, command = .call name arguments ∧ Lowering.maxArguments < arguments ∧
                fault = .tooManyArguments arguments Lowering.maxArguments) ∨
              ∃ name ∈ moment.generated, fault = .duplicateLabel name ∧ ∃ other ∈ earlier, other.Declares name) ∧
        ∀ entry, moment.action = .bootstrap entry →
          ∃ passed, moment.generated = passed ++ Line.labels (moment.generator.bootstrap entry).1 ∧
            (∀ name ∈ passed, ∃ other ∈ earlier, other.Declares name) ∧
            ∀ name ∈ Line.labels (moment.generator.bootstrap entry).1,
              ¬ ∃ other ∈ earlier, other.Declares name := by
  intro moments
  refine ⟨Generator.moments_generated_nodup _ actions, ?_, ?_⟩
  · intro name member owner index
    obtain ⟨_, _, _, rfl, -⟩ := Generator.moments_numbered member
    exact Label.generated_ne_staticSymbol _ _ _ owner index
  · intro earlier moment later split
    have knows := Generator.knows_moments split
    refine ⟨?_, ?_⟩
    · intro command here takes
      exact ⟨fun lines next => knows.numbered_ok here takes, fun fault stopped => knows.numbered_error here takes⟩
    · intro entry here
      exact knows.bootstrap_passes here

-- A function of the source can take the name of a generated label.
example :
    (match Lowering.command (.arithmetic .eq)
        (Generator.after { unit := "Main" } (.command (.function "Main:CMP_0" 0))) with
      | .ok _ _ => none
      | .error fault _ => some fault) = some (.duplicateLabel "Main:CMP_0") := by
  decide +kernel

end HackVM
