import Mathlib.Data.List.Nodup
import HackVM.Program
import HackVM.Proofs.Resolution

/-! # The places of commands in a program

What a command is lowered to depends on the unit and the function around it and on how many labels
were numbered before it. A site is a command together with these. Its code, the labels that the code
defines and the static variables that it uses are functions of the site alone; a generator only decides
whether they may still be used. `Generator.Records` says that a generator's tables are those of the
sites lowered so far, and every step that succeeds keeps it.
-/

namespace HackVM

namespace Line

/-- The name that a line defines. -/
def label? : Line → Option String
  | label name => some name
  | comment _ | operation _ => none

/-- The names that lines define, in order. -/
def labels (lines : List Line) : List String := lines.filterMap label?

@[simp] theorem labels_append (first second : List Line) :
    labels (first ++ second) = labels first ++ labels second :=
  List.filterMap_append

end Line

namespace Command

/-- Whether the labels of a command carry a number of their own. -/
def takesNumber : Command → Bool
  | arithmetic .eq | arithmetic .gt | arithmetic .lt | call _ _ => true
  | _ => false

/-- The function whose code a command starts. -/
def entered? : Command → Option String
  | function name _ => some name
  | _ => none

/-- The operands of a command are in range. -/
def Admitted : Command → Prop
  | push segment index => ∀ limit ∈ segment.limit?, index ≤ limit
  | pop segment index => segment ≠ .constant ∧ ∀ limit ∈ segment.limit?, index ≤ limit
  | call _ arguments => arguments ≤ Lowering.maxArguments
  | _ => True

end Command

/-- A command, the unit and function around it, and the number of commands before it that take a
number. -/
structure Site where
  unit : String
  function : Option String
  number : Nat
  command : Command
deriving DecidableEq, Repr

namespace Site

/-- What surrounds source labels. -/
def scope (site : Site) : String := site.function.getD site.unit

/-- The full name of a source label. -/
def labelName (site : Site) (name : String) : String := Label.inScope site.scope name

/-- The name of a label that is generated for the command. -/
def generated (site : Site) (purpose : Label.Purpose) : String :=
  Label.generated site.unit purpose site.number

/-- The code of a comparison. -/
def comparison (site : Site) (condition : Jump) : List Line :=
  Template.comparison condition (site.generated .comparison) (site.generated .comparisonEnd)

/-- The code of an operator. -/
def arithmetic (site : Site) : Operator → List Line
  | .add => Template.binary (.add .m)
  | .sub => Template.binary (.minusD .m)
  | .and => Template.binary (.and .m)
  | .or => Template.binary (.or .m)
  | .neg => Template.unary (.neg .m)
  | .not => Template.unary (.not .m)
  | .eq => site.comparison .eq
  | .gt => site.comparison .gt
  | .lt => site.comparison .lt

/-- The code of popping into a location. A constant is no location. -/
def popInto : Location → List Line
  | .immediate _ => []
  | .indirect base offset => Template.popIndirect base offset
  | .direct name => Template.popCell name

/-- The code of the command. -/
def code (site : Site) : List Line :=
  match site.command with
  | .arithmetic operator => site.arithmetic operator
  | .push segment index => Template.push (segment.place site.unit index)
  | .pop segment index => popInto (segment.place site.unit index)
  | .label name => [.label (site.labelName name)]
  | .goto name => Template.goto (site.labelName name)
  | .ifGoto name => Template.ifGoto (site.labelName name)
  | .function name locals => Template.function name locals
  | .call name arguments => Template.call name arguments (site.generated .returnPoint)
  | .ret => Template.ret

/-- The code of the command, after its text if that is wanted. -/
def block (annotate : Bool) (site : Site) : List Line :=
  if annotate then .comment site.command.render :: site.code else site.code

/-- The names that the command defines. -/
def labels (site : Site) : List String :=
  match site.command with
  | .arithmetic .eq | .arithmetic .gt | .arithmetic .lt =>
    [site.generated .comparison, site.generated .comparisonEnd]
  | .label name => [site.labelName name]
  | .function name _ => [name]
  | .call _ _ => [site.generated .returnPoint]
  | _ => []

/-- The names of the static variables that the command uses. -/
def statics (site : Site) : List String :=
  match site.command with
  | .push .static index | .pop .static index => [staticSymbol site.unit index]
  | _ => []

/-- The sites of commands in a unit. -/
def ofCommands (unit : String) : Option String → Nat → List Command → List Site
  | _, _, [] => []
  | function, number, command :: rest =>
    ⟨unit, function, number, command⟩ ::
      ofCommands unit (command.entered?.or function) (number + command.takesNumber.toNat) rest

/-- How many sites take a number. -/
def numbered (sites : List Site) : Nat := sites.countP fun site => site.command.takesNumber

@[simp] theorem numbered_nil : numbered [] = 0 := rfl

@[simp] theorem numbered_cons (site : Site) (rest : List Site) :
    numbered (site :: rest) = site.command.takesNumber.toNat + numbered rest := by
  rw [numbered, List.countP_cons, Nat.add_comm]
  cases site.command.takesNumber <;> rfl

@[simp] theorem numbered_append (first second : List Site) :
    numbered (first ++ second) = numbered first + numbered second :=
  List.countP_append

end Site

/-- The commands of a unit. -/
def SourceUnit.commands (unit : SourceUnit) : List Command := unit.listing.map NumberedCommand.command

/-- The sites of units, when some labels are numbered already. -/
def Site.ofUnitsFrom : Nat → List SourceUnit → List Site
  | _, [] => []
  | number, unit :: rest =>
    let sites := ofCommands unit.name none number unit.commands
    sites ++ ofUnitsFrom (number + numbered sites) rest

/-- The sites of a program. -/
def Site.ofUnits (units : List SourceUnit) : List Site := ofUnitsFrom 0 units

/-- The full name of a label holds the mark behind the scope. -/
theorem Site.mark_mem_labelName (site : Site) (name : String) : '$' ∈ (site.labelName name).toList := by
  simp [labelName, Label.inScope]

/-- A name that a command defines is generated for it, or belongs to a label, or is that of a function. -/
theorem Site.label_cases {site : Site} {name : String} (defined : name ∈ site.labels) :
    (∃ purpose, name = site.generated purpose) ∨
      (∃ own, site.command = .label own ∧ name = site.labelName own) ∨
      ∃ locals, site.command = .function name locals := by
  rw [labels] at defined
  split at defined
  case h_1 | h_2 | h_3 =>
    rw [List.mem_cons, List.mem_singleton] at defined
    rcases defined with rfl | rfl
    · exact .inl ⟨_, rfl⟩
    · exact .inl ⟨_, rfl⟩
  case h_4 own command => exact .inr (.inl ⟨own, command, List.mem_singleton.mp defined⟩)
  case h_5 own locals command =>
    rw [List.mem_singleton.mp defined]
    exact .inr (.inr ⟨locals, command⟩)
  case h_6 => exact .inl ⟨_, List.mem_singleton.mp defined⟩
  case h_7 => contradiction

private theorem Template.labels_function (name : String) (locals : Word) :
    Line.labels (Template.function name locals) = [name] := by
  have none : ∀ count, Line.labels (List.replicate count
      [Line.symbol "SP", .store .M (.inc .m), .store .A (.dec .m), .store .M .zero]).flatten = [] := by
    intro count
    induction count with
    | zero => rfl
    | succ count ih =>
      rw [List.replicate_succ, List.flatten_cons, Line.labels_append, ih]
      rfl
  simp only [Template.function, Line.labels, List.filterMap_cons, Line.label?]
  rw [← Line.labels, none]

/-- The code of a command defines the names that the command defines, in that order. -/
theorem Site.labels_code (site : Site) : Line.labels site.code = site.labels := by
  obtain ⟨unit, function, number, command⟩ := site
  cases command with
  | arithmetic operator => cases operator <;> rfl
  | push segment index => cases segment <;> rfl
  | pop segment index => cases segment <;> rfl
  | function name locals => exact Template.labels_function name locals
  | label name => rfl
  | goto name => rfl
  | ifGoto name => rfl
  | call name arguments => rfl
  | ret => rfl

theorem Site.labels_block (annotate : Bool) (site : Site) : Line.labels (site.block annotate) = site.labels := by
  rw [← labels_code, block]
  split <;> rfl

theorem NameSet.contains_insert_iff (names : NameSet) (name other : String) :
    (names.insert name).contains other = true ↔ names.contains other = true ∨ other = name := by
  rw [Std.TreeSet.contains_insert, Bool.or_eq_true, beq_iff_eq, Std.compare_eq_iff_eq, or_comm, @eq_comm _ name]

/-- The labels and the static variables in a generator's tables, which have no name in common. -/
structure Generator.Records (generator : Generator) (labels statics : List String) : Prop where
  defines : ∀ name, generator.defined.contains name = true ↔ name ∈ labels
  uses : ∀ name, generator.statics.contains name = true ↔ name ∈ statics
  distinct : labels.Nodup
  apart : ∀ name ∈ labels, name ∉ statics

/-- The site of a command in the current state of a generator. -/
def Generator.site (generator : Generator) (command : Command) : Site :=
  ⟨generator.unit, generator.function, generator.counter.next, command⟩

/-- What a command that has code does to a generator. -/
structure Generator.Lowers (generator : Generator) (command : Command) (lines : List Line)
    (next : Generator) : Prop where
  code : lines = (generator.site command).code
  admitted : command.Admitted
  unit : next.unit = generator.unit
  function : next.function = command.entered?.or generator.function
  number : next.counter.next = generator.counter.next + command.takesNumber.toNat
  annotate : next.annotate = generator.annotate
  records : ∀ labels statics, generator.Records labels statics →
    next.Records (labels ++ (generator.site command).labels) (statics ++ (generator.site command).statics)

theorem Segment.locate_eq_ok {unit : String} {segment : Segment} {index : Word} {location : Location}
    (success : segment.locate unit index = .ok location) :
    (∀ limit ∈ segment.limit?, index ≤ limit) ∧ location = segment.place unit index := by
  rw [locate] at success
  cases bound : segment.limit? with
  | none =>
    rw [bound] at success
    cases success
    exact ⟨by simp, rfl⟩
  | some limit =>
    simp only [bound] at success
    split_ifs at success with large
    cases success
    exact ⟨by simpa using large, rfl⟩

namespace Lowering

theorem define_eq_ok {name : String} {generator next : Generator} {result : Unit}
    (success : define name generator = .ok result next) :
    next = { generator with defined := generator.defined.insert name } ∧
      ¬ generator.statics.contains name = true ∧ ¬ generator.defined.contains name = true := by
  rw [define] at success
  split_ifs at success with static taken
  cases success
  exact ⟨rfl, static, taken⟩

/-- A label that can be defined is neither a label nor a static variable before. -/
theorem define_records {name : String} {generator next : Generator} {result : Unit}
    {labels statics : List String} (success : define name generator = .ok result next)
    (records : generator.Records labels statics) :
    next.Records (labels ++ [name]) statics := by
  obtain ⟨rfl, static, taken⟩ := define_eq_ok success
  rw [records.uses] at static
  rw [records.defines] at taken
  refine ⟨?_, records.uses, ?_, ?_⟩
  · intro other
    rw [NameSet.contains_insert_iff, records.defines, List.mem_append, List.mem_singleton]
  · exact records.distinct.append (List.nodup_singleton name) (List.disjoint_singleton.mpr taken)
  · intro other member
    rcases List.mem_append.mp member with earlier | here
    · exact records.apart other earlier
    · rwa [List.mem_singleton.mp here]

/-- An index that can be located is in range, and a static variable that can be located is no label. -/
theorem locate_eq_ok {segment : Segment} {index : Word} {generator next : Generator} {location : Location}
    (success : locate segment index generator = .ok location next) :
    (∀ limit ∈ segment.limit?, index ≤ limit) ∧ location = segment.place generator.unit index ∧
      next = { generator with
        statics :=
          if segment = .static then generator.statics.record generator.unit index else generator.statics } ∧
      (segment = .static → ¬ generator.defined.contains (staticSymbol generator.unit index) = true) := by
  rw [locate, StaticTable.resolve] at success
  cases located : segment.locate generator.unit index with
  | error fault => simp [located] at success
  | ok place =>
    obtain ⟨bound, rfl⟩ := Segment.locate_eq_ok located
    rw [located] at success
    refine ⟨bound, ?_⟩
    cases segment with
    | static =>
      simp only [Segment.place, decide_true, Bool.true_and] at success
      split_ifs at success with clash
      cases success
      exact ⟨rfl, rfl, fun _ => clash⟩
    | constant | locals | argument | this | that | pointer | temp =>
      cases success
      exact ⟨rfl, rfl, by simp⟩

private theorem locate_records {segment : Segment} {index : Word} {generator next : Generator} {location : Location}
    {labels statics : List String} (success : locate segment index generator = .ok location next)
    (records : generator.Records labels statics) :
    next.Records labels
      (statics ++ if segment = .static then [staticSymbol generator.unit index] else []) := by
  obtain ⟨-, -, rfl, clash⟩ := locate_eq_ok success
  split_ifs with static
  · simp only [static, forall_const, records.defines] at clash
    refine ⟨records.defines, ?_, records.distinct, ?_⟩
    · intro name
      rw [StaticTable.record, StaticTable.contains, NameSet.contains_insert_iff, List.mem_append,
        List.mem_singleton, ← StaticTable.contains, records.uses]
    · intro name member
      rw [List.mem_append, List.mem_singleton, not_or]
      exact ⟨records.apart name member, ne_of_mem_of_not_mem member clash⟩
  · simpa [static] using records

/-- A command that needs no table leaves the generator as it is. -/
theorem lowers_same {command : Command} {generator : Generator} (admitted : command.Admitted)
    (entered : command.entered? = none) (unnumbered : command.takesNumber = false)
    (labels : (generator.site command).labels = []) (statics : (generator.site command).statics = []) :
    generator.Lowers command (generator.site command).code generator := by
  refine ⟨rfl, admitted, rfl, ?_, ?_, rfl, ?_⟩
  · rw [entered, Option.none_or]
  · rw [unnumbered, Bool.toNat_false, Nat.add_zero]
  · rw [labels, statics]
    simp

/-- A comparison takes a number and defines two labels. -/
theorem comparison_eq_ok {condition : Jump} {generator next : Generator} {lines : List Line}
    (success : comparison condition generator = .ok lines next) :
    let hit := Label.generated generator.unit .comparison generator.counter.next
    let done := Label.generated generator.unit .comparisonEnd generator.counter.next
    lines = Template.comparison condition hit done ∧
      next = { generator with
        counter := ⟨generator.counter.next + 1⟩
        defined := (generator.defined.insert hit).insert done } ∧
      ∀ labels statics, generator.Records labels statics → next.Records (labels ++ [hit, done]) statics := by
  obtain ⟨number, taken, ran, success⟩ := Runs.state_bind_eq_ok_iff.mp success
  cases ran
  obtain ⟨same, _, ran, success⟩ := Runs.state_bind_eq_ok_iff.mp success
  cases ran
  obtain ⟨_, first, hit, success⟩ := Runs.state_bind_eq_ok_iff.mp success
  obtain ⟨_, second, done, success⟩ := Runs.state_bind_eq_ok_iff.mp success
  cases success
  obtain ⟨rfl, -⟩ := define_eq_ok hit
  obtain ⟨rfl, -⟩ := define_eq_ok done
  refine ⟨rfl, rfl, ?_⟩
  intro labels statics records
  simpa using define_records done
    (define_records hit ⟨records.defines, records.uses, records.distinct, records.apart⟩)

/-- A call in range takes a number and defines its return label. -/
theorem call_eq_ok {name : String} {arguments : Word} {generator next : Generator} {lines : List Line}
    (success : call name arguments generator = .ok lines next) :
    let returnPoint := Label.generated generator.unit .returnPoint generator.counter.next
    arguments ≤ maxArguments ∧ lines = Template.call name arguments returnPoint ∧
      next = { generator with
        counter := ⟨generator.counter.next + 1⟩
        defined := generator.defined.insert returnPoint } ∧
      ∀ labels statics, generator.Records labels statics → next.Records (labels ++ [returnPoint]) statics := by
  rw [call] at success
  split_ifs at success with large
  · contradiction
  obtain ⟨number, taken, ran, success⟩ := Runs.state_bind_eq_ok_iff.mp success
  cases ran
  obtain ⟨same, _, ran, success⟩ := Runs.state_bind_eq_ok_iff.mp success
  cases ran
  obtain ⟨_, first, returnPoint, success⟩ := Runs.state_bind_eq_ok_iff.mp success
  cases success
  obtain ⟨rfl, -⟩ := define_eq_ok returnPoint
  refine ⟨BitVec.not_lt.mp large, rfl, rfl, ?_⟩
  intro labels statics records
  exact define_records returnPoint ⟨records.defines, records.uses, records.distinct, records.apart⟩

/-- Only a segment with cells can be popped into. -/
theorem pop_eq_ok {segment : Segment} {index : Word} {generator next : Generator} {lines : List Line}
    (success : pop segment index generator = .ok lines next) :
    segment ≠ .constant ∧ lines = Site.popInto (segment.place generator.unit index) ∧
      ∃ location, locate segment index generator = .ok location next := by
  rw [pop] at success
  split_ifs at success with constant
  · contradiction
  refine ⟨constant, ?_⟩
  obtain ⟨location, middle, located, success⟩ := Runs.state_bind_eq_ok_iff.mp success
  obtain ⟨-, rfl, -⟩ := locate_eq_ok located
  cases segment with
  | constant => contradiction
  | locals | static | argument | this | that | pointer | temp =>
    cases success
    exact ⟨rfl, _, located⟩

/-- A step that lowers a command emits the code of its site, and adds the names of the site to the
tables. -/
theorem code_lowers {command : Command} {generator next : Generator} {lines : List Line}
    (success : code command generator = .ok lines next) : generator.Lowers command lines next := by
  cases command with
  | arithmetic operator =>
    cases operator with
    | eq | gt | lt =>
      obtain ⟨rfl, rfl, records⟩ := comparison_eq_ok success
      refine ⟨rfl, trivial, rfl, rfl, rfl, rfl, ?_⟩
      simpa [Site.labels, Site.statics, Site.generated, Generator.site] using records
    | add | sub | and | or | neg | not =>
      cases success
      exact lowers_same trivial rfl rfl rfl rfl
  | push segment index =>
    obtain ⟨location, _, located, success⟩ := Runs.state_bind_eq_ok_iff.mp success
    cases success
    obtain ⟨bound, rfl, rfl, -⟩ := locate_eq_ok located
    refine ⟨rfl, bound, rfl, rfl, rfl, rfl, ?_⟩
    intro labels statics records
    have recorded := locate_records located records
    cases segment <;> simpa [Site.labels, Site.statics, Generator.site] using recorded
  | pop segment index =>
    obtain ⟨cells, rfl, location, located⟩ := pop_eq_ok success
    obtain ⟨bound, -, rfl, -⟩ := locate_eq_ok located
    refine ⟨rfl, ⟨cells, bound⟩, rfl, rfl, rfl, rfl, ?_⟩
    intro labels statics records
    have recorded := locate_records located records
    cases segment <;> simpa [Site.labels, Site.statics, Generator.site] using recorded
  | label name =>
    obtain ⟨same, _, ran, success⟩ := Runs.state_bind_eq_ok_iff.mp success
    cases ran
    obtain ⟨_, defined, define, success⟩ := Runs.state_bind_eq_ok_iff.mp success
    cases success
    obtain ⟨rfl, -⟩ := define_eq_ok define
    refine ⟨rfl, trivial, rfl, rfl, rfl, rfl, ?_⟩
    intro labels statics records
    rw [show (generator.site (.label name)).statics = [] from rfl, List.append_nil]
    exact define_records define records
  | function name locals =>
    obtain ⟨_, defined, define, success⟩ := Runs.state_bind_eq_ok_iff.mp success
    obtain ⟨rfl, -⟩ := define_eq_ok define
    cases success
    refine ⟨rfl, trivial, rfl, rfl, rfl, rfl, ?_⟩
    intro labels statics records
    have recorded := define_records define records
    rw [show (generator.site (.function name locals)).statics = [] from rfl, List.append_nil]
    exact ⟨recorded.defines, recorded.uses, recorded.distinct, recorded.apart⟩
  | call name arguments =>
    obtain ⟨bound, rfl, rfl, records⟩ := call_eq_ok success
    refine ⟨rfl, bound, rfl, rfl, rfl, rfl, ?_⟩
    simpa [Site.labels, Site.statics, Site.generated, Generator.site] using records
  | goto name | ifGoto name | ret =>
    cases success
    exact lowers_same trivial rfl rfl rfl rfl

end Lowering

/-- What lowering the commands at a sequence of sites does. -/
structure Generator.LowersAll (generator : Generator) (sites : List Site) (blocks : List (List Line))
    (next : Generator) : Prop where
  blocks : blocks = sites.map (Site.block generator.annotate)
  admitted : ∀ site ∈ sites, site.command.Admitted
  number : next.counter.next = generator.counter.next + Site.numbered sites
  annotate : next.annotate = generator.annotate
  records : ∀ labels statics, generator.Records labels statics →
    next.Records (labels ++ sites.flatMap Site.labels) (statics ++ sites.flatMap Site.statics)

/-- A command that succeeds emits the block of its site. -/
theorem Lowering.command_lowers {command : Command} {generator next : Generator} {lines : List Line}
    (success : Lowering.command command generator = .ok lines next) :
    generator.Lowers command (generator.site command).code next ∧
      lines = (generator.site command).block generator.annotate := by
  obtain ⟨code, middle, lowered, ran⟩ := Runs.state_bind_eq_ok_iff.mp success
  have lowers := code_lowers lowered
  cases lowers.code
  obtain ⟨same, _, read, ran⟩ := Runs.state_bind_eq_ok_iff.mp ran
  cases read
  cases ran
  exact ⟨lowers, by rw [lowers.annotate]; rfl⟩

/-- The number of a command matters only to a failure. -/
theorem Draft.numberedCode_eq_ok_iff {numbered : NumberedCommand} {generator next : Generator} {lines : List Line} :
    numberedCode numbered generator = .ok lines next ↔
      Lowering.command numbered.command generator = .ok lines next := by
  simp only [numberedCode, EStateM.adaptExcept]
  cases Lowering.command numbered.command generator <;> simp

theorem Draft.numberedCode_lowers {numbered : NumberedCommand} {generator next : Generator} {lines : List Line}
    (success : numberedCode numbered generator = .ok lines next) :
    generator.Lowers numbered.command (generator.site numbered.command).code next ∧
      lines = (generator.site numbered.command).block generator.annotate :=
  Lowering.command_lowers (numberedCode_eq_ok_iff.mp success)

/-- Lowering a listing lowers the sites of its commands one after the other. -/
theorem Draft.mapM_numberedCode_lowers {listing : Listing} {generator next : Generator}
    {blocks : List (List Line)} (success : listing.mapM numberedCode generator = .ok blocks next) :
    generator.LowersAll (Site.ofCommands generator.unit generator.function generator.counter.next
      (listing.map NumberedCommand.command)) blocks next := by
  induction listing generalizing generator blocks with
  | nil =>
    cases success
    exact ⟨rfl, by simp [Site.ofCommands], rfl, rfl, by simp [Site.ofCommands]⟩
  | cons numbered rest ih =>
    obtain ⟨first, middle, others, ran, later, rfl⟩ := Runs.mapM_cons_eq_ok_iff.mp success
    obtain ⟨lowers, rfl⟩ := numberedCode_lowers ran
    have remaining := ih later
    rw [lowers.unit, lowers.function, lowers.number] at remaining
    rw [List.map_cons, Site.ofCommands]
    refine ⟨?_, ?_, ?_, ?_, ?_⟩
    · rw [List.map_cons, remaining.blocks, lowers.annotate]
      rfl
    · simp only [List.mem_cons, forall_eq_or_imp]
      exact ⟨lowers.admitted, remaining.admitted⟩
    · rw [remaining.number, lowers.number, Site.numbered_cons, Nat.add_assoc]
    · rw [remaining.annotate, lowers.annotate]
    · intro labels statics records
      rw [List.flatMap_cons, List.flatMap_cons, ← List.append_assoc, ← List.append_assoc]
      exact remaining.records _ _ (lowers.records _ _ records)

end HackVM
