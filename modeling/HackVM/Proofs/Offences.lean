import HackVM.Proofs.Linking

/-! # Why linking fails

A command offends if its operands are out of range, if it defines a label whose name is a label or a static
variable already, or if it uses a static variable whose name is a label already. Whether it does depends on
all commands before it, in whichever units. `Site.fault?` says what is wrong with a command, and a generator
whose tables are those of the earlier sites refuses the command for just that. So linking fails iff some
command offends, and tells the unit and line of the first one and what is wrong with it.
-/

namespace HackVM

/-- The largest index of each segment that has one. -/
def Segment.lastIndices : List (Segment × Word) :=
  [(constant, 32767), (locals, 32767), (argument, 32767), (this, 32767), (that, 32767), (pointer, 1), (temp, 7)]

private theorem Segment.limit?_eq_lookup (segment : Segment) : segment.limit? = lastIndices.lookup segment := by
  cases segment <;> rfl

/-- What is wrong with an index of a segment. -/
def Segment.indexFault? (segment : Segment) (index : Word) : Option LoweringError :=
  (lastIndices.lookup segment).bind fun limit =>
    if limit < index then some (.indexOutOfRange segment index limit) else none

/-- What is wrong with the operands of a command, wherever it stands. -/
def Command.operandFault? : Command → Option LoweringError
  | push segment index => segment.indexFault? index
  | pop segment index => if segment = .constant then some (.popToSegment .constant) else segment.indexFault? index
  | call _ arguments => if 32762 < arguments then some (.tooManyArguments arguments 32762) else none
  | _ => none

theorem Segment.locate_eq (unit : String) (segment : Segment) (index : Word) :
    segment.locate unit index =
      match segment.indexFault? index with
      | some fault => .error fault
      | none => .ok (segment.place unit index) := by
  rw [locate, limit?_eq_lookup, indexFault?]
  cases lastIndices.lookup segment with
  | none => rfl
  | some limit =>
    simp only [Option.bind_some]
    split <;> rfl

/-- What is wrong with a name for a label, when some labels are defined and some static variables in use. -/
def Label.fault? (labels statics : List String) (name : String) : Option LoweringError :=
  if name ∈ statics then some (.staticClash name)
  else if name ∈ labels then some (.duplicateLabel name)
  else none

private theorem Label.fault?_eq_none_iff {labels statics : List String} {name : String} :
    fault? labels statics name = none ↔ ¬ (name ∈ labels ∨ name ∈ statics) := by
  rw [fault?]
  split_ifs with static label
  · simp [static]
  · simp [label]
  · simp [static, label]

/-- Another label makes no difference. -/
theorem Label.fault?_append_of_ne {name other : String} (differs : name ≠ other) (labels statics : List String) :
    fault? (labels ++ [other]) statics name = fault? labels statics name := by
  simp only [fault?, List.mem_append, List.mem_singleton, differs, or_false]

namespace Site

/-- The command cannot have code after the commands at earlier sites. -/
def Offends (earlier : List Site) (site : Site) : Prop :=
  site.command.operandFault? ≠ none ∨
    (∃ name ∈ site.labels, name ∈ earlier.flatMap labels ∨ name ∈ earlier.flatMap statics) ∨
    ∃ name ∈ site.statics, name ∈ earlier.flatMap labels

/-- What is wrong with a command after the commands at earlier sites. Its operands come first, then the
first of its labels whose name is taken. -/
def fault? (earlier : List Site) (site : Site) : Option LoweringError :=
  site.command.operandFault?.or
    ((site.labels.findSome? (Label.fault? (earlier.flatMap labels) (earlier.flatMap statics))).or
      ((site.statics.find? (· ∈ earlier.flatMap labels)).map .staticClash))

/-- Something is wrong with a command iff it offends. -/
theorem fault?_eq_none_iff {earlier : List Site} {site : Site} :
    site.fault? earlier = none ↔ ¬ site.Offends earlier := by
  simp only [fault?, Offends, Option.or_eq_none_iff, List.findSome?_eq_none_iff, Label.fault?_eq_none_iff,
    Option.map_eq_none_iff, List.find?_eq_none, decide_eq_true_eq, not_or, not_exists, not_and, not_not]

section Fault

variable {earlier : List Site} {site : Site} {fault : LoweringError}

private theorem fault?_of_operands (wrong : site.command.operandFault? = some fault) :
    site.fault? earlier = some fault := by
  rw [fault?, wrong, Option.some_or]

private theorem fault?_of_labels (fine : site.command.operandFault? = none)
    (wrong : site.labels.findSome? (Label.fault? (earlier.flatMap labels) (earlier.flatMap statics)) = some fault) :
    site.fault? earlier = some fault := by
  rw [fault?, fine, wrong, Option.none_or, Option.some_or]

private theorem fault?_of_static {name : String} (fine : site.command.operandFault? = none) (none : site.labels = [])
    (used : site.statics = [name]) (label : name ∈ earlier.flatMap labels) :
    site.fault? earlier = some (.staticClash name) := by
  rw [fault?, fine, none, used, List.find?_singleton, if_pos (decide_eq_true label)]
  rfl

end Fault

end Site

/-- The two labels of a comparison differ. -/
theorem Label.generated_comparisonEnd_ne (owner : String) (number : Nat) :
    generated owner .comparisonEnd number ≠ generated owner .comparison number := by
  intro same
  have texts := congrArg String.toList same
  simp [generated, Purpose.name] at texts

/-- The tables do not depend on the label counter. -/
theorem Generator.Records.withCounter {generator : Generator} {labels statics : List String}
    (records : generator.Records labels statics) (counter : LabelCounter) :
    { generator with counter }.Records labels statics :=
  ⟨records.defines, records.uses, records.distinct, records.apart⟩

namespace Lowering

variable {generator stopped : Generator} {fault : LoweringError}

section Tables

variable {labels statics : List String} (records : generator.Records labels statics)

include records

/-- A label is refused for what is wrong with its name. -/
theorem define_fault {name : String} (failed : define name generator = .error fault stopped) :
    Label.fault? labels statics name = some fault := by
  rw [define] at failed
  split_ifs at failed with static taken
  · cases failed
    rw [Label.fault?, if_pos ((records.uses name).mp static)]
  · cases failed
    rw [records.uses] at static
    rw [Label.fault?, if_neg static, if_pos ((records.defines name).mp taken)]

/-- A comparison fails for the first of its labels whose name is taken. -/
theorem comparison_fault {condition : Jump} (failed : comparison condition generator = .error fault stopped) :
    [Label.generated generator.unit .comparison generator.counter.next,
      Label.generated generator.unit .comparisonEnd generator.counter.next].findSome?
      (Label.fault? labels statics) = some fault := by
  have tables := records.withCounter ⟨generator.counter.next + 1⟩
  obtain failed | ⟨number, taken, ran, failed⟩ := Runs.state_bind_eq_error_iff.mp failed
  · contradiction
  cases ran
  obtain failed | ⟨same, _, ran, failed⟩ := Runs.state_bind_eq_error_iff.mp failed
  · contradiction
  cases ran
  obtain failed | ⟨_, first, hit, failed⟩ := Runs.state_bind_eq_error_iff.mp failed
  · rw [List.findSome?_cons, define_fault tables failed]
  obtain ⟨-, static, free⟩ := define_eq_ok hit
  rw [tables.uses] at static
  rw [tables.defines] at free
  rw [List.findSome?_cons, Label.fault?_eq_none_iff.mpr (not_or.mpr ⟨free, static⟩)]
  obtain failed | ⟨_, second, done, failed⟩ := Runs.state_bind_eq_error_iff.mp failed
  · -- The first label is defined by now, but it is not the second.
    have refused := define_fault (define_records hit tables) failed
    rw [Label.fault?_append_of_ne (Label.generated_comparisonEnd_ne _ _)] at refused
    rw [List.findSome?_cons, refused]
  · contradiction

/-- An entry cannot be located for what is wrong with its index, or for a static variable that is a label. -/
theorem locate_fault {segment : Segment} {index : Word}
    (failed : locate segment index generator = .error fault stopped) :
    segment.indexFault? index = some fault ∨
      segment = .static ∧ staticSymbol generator.unit index ∈ labels ∧
        fault = .staticClash (staticSymbol generator.unit index) := by
  rw [locate, StaticTable.resolve, Segment.locate_eq] at failed
  cases wrong : segment.indexFault? index with
  | some other =>
    simp only [wrong] at failed
    cases failed
    exact .inl rfl
  | none =>
    simp only [wrong] at failed
    cases segment with
    | static =>
      simp only [Segment.place, decide_true, Bool.true_and] at failed
      split_ifs at failed with clash
      cases failed
      exact .inr ⟨rfl, (records.defines _).mp clash, rfl⟩
    | constant | locals | argument | this | that | pointer | temp => contradiction

end Tables

section Sites

variable {earlier : List Site}
  (records : generator.Records (earlier.flatMap Site.labels) (earlier.flatMap Site.statics))

include records

/-- A command that has no code fails for what is wrong with it. -/
theorem code_fault {command : Command} (failed : code command generator = .error fault stopped) :
    (generator.site command).fault? earlier = some fault := by
  cases command with
  | arithmetic operator =>
    cases operator with
    | eq | gt | lt => exact Site.fault?_of_labels rfl (comparison_fault records failed)
    | add | sub | and | or | neg | not => contradiction
  | push segment index =>
    obtain failed | ⟨location, _, located, failed⟩ := Runs.state_bind_eq_error_iff.mp failed
    · rcases locate_fault records failed with wrong | ⟨rfl, label, rfl⟩
      · exact Site.fault?_of_operands wrong
      · exact Site.fault?_of_static rfl rfl rfl label
    · contradiction
  | pop segment index =>
    rw [code, pop] at failed
    split_ifs at failed with constant
    · cases constant
      cases failed
      exact Site.fault?_of_operands rfl
    obtain failed | ⟨location, _, located, failed⟩ := Runs.state_bind_eq_error_iff.mp failed
    · rcases locate_fault records failed with wrong | ⟨rfl, label, rfl⟩
      · exact Site.fault?_of_operands ((if_neg constant).trans wrong)
      · exact Site.fault?_of_static rfl rfl rfl label
    · obtain ⟨-, rfl, -⟩ := locate_eq_ok located
      cases segment <;> contradiction
  | label name =>
    obtain failed | ⟨same, _, ran, failed⟩ := Runs.state_bind_eq_error_iff.mp failed
    · contradiction
    cases ran
    obtain failed | ⟨_, defined, define, failed⟩ := Runs.state_bind_eq_error_iff.mp failed
    · have refused := define_fault records failed
      exact Site.fault?_of_labels rfl (List.findSome?_singleton.trans refused)
    · contradiction
  | function name locals =>
    obtain failed | ⟨_, defined, define, failed⟩ := Runs.state_bind_eq_error_iff.mp failed
    · have refused := define_fault records failed
      exact Site.fault?_of_labels rfl (List.findSome?_singleton.trans refused)
    · contradiction
  | call name arguments =>
    rw [code, call] at failed
    split_ifs at failed with large
    · cases failed
      exact Site.fault?_of_operands (if_pos large)
    obtain failed | ⟨number, taken, ran, failed⟩ := Runs.state_bind_eq_error_iff.mp failed
    · contradiction
    cases ran
    obtain failed | ⟨same, _, ran, failed⟩ := Runs.state_bind_eq_error_iff.mp failed
    · contradiction
    cases ran
    obtain failed | ⟨_, first, returnPoint, failed⟩ := Runs.state_bind_eq_error_iff.mp failed
    · have refused := define_fault (records.withCounter _) failed
      exact Site.fault?_of_labels (if_neg large) (List.findSome?_singleton.trans refused)
    · contradiction
  | goto name | ifGoto name | ret => contradiction

end Sites

end Lowering

theorem Command.Admitted.operandFault? {command : Command} (admitted : command.Admitted) :
    command.operandFault? = none := by
  have fine : ∀ {segment : Segment} {index : Word}, (∀ limit ∈ segment.limit?, index ≤ limit) →
      segment.indexFault? index = none := by
    intro segment index bounded
    rw [Segment.limit?_eq_lookup] at bounded
    rw [Segment.indexFault?, Option.bind_eq_none_iff]
    intro limit found
    exact if_neg (BitVec.not_lt.mpr (bounded limit found))
  cases command with
  | push segment index => exact fine admitted
  | pop segment index => exact (if_neg admitted.1).trans (fine admitted.2)
  | call name arguments => exact if_neg (BitVec.not_lt.mpr admitted)
  | arithmetic | label | goto | ifGoto | function | ret => rfl

/-- A command that has code does not offend: the tables with its names are still in order. -/
theorem Generator.Lowers.not_offends {generator next : Generator} {command : Command} {lines : List Line}
    (lowers : generator.Lowers command lines next) {earlier : List Site}
    (records : generator.Records (earlier.flatMap Site.labels) (earlier.flatMap Site.statics)) :
    ¬ (generator.site command).Offends earlier := by
  have after := lowers.records _ _ records
  rintro (wrong | ⟨name, defined, label | static⟩ | ⟨name, used, label⟩)
  · exact wrong lowers.admitted.operandFault?
  · exact (List.disjoint_of_nodup_append after.distinct) label defined
  · exact after.apart name (List.mem_append_right _ defined) (List.mem_append_left _ static)
  · exact after.apart name (List.mem_append_left _ label) (List.mem_append_right _ used)

/-- The line numbers of the commands of units, in order. -/
def SourceUnit.lineNumbers (units : List SourceUnit) : List Nat :=
  units.flatMap fun unit => unit.listing.map NumberedCommand.line

/-- The commands of units in order: each with its site and the number of its line. -/
def SourceUnit.placed (units : List SourceUnit) : List (Site × Nat) :=
  (Site.ofUnits units).zip (lineNumbers units)

/-- What is reported about the first command that offends. -/
def Site.firstError? (earlier : List Site) : List (Site × Nat) → Option UnitError
  | [] => none
  | (site, line) :: rest =>
    match site.fault? earlier with
    | some fault => some ⟨site.unit, line, .lowering fault⟩
    | none => firstError? (earlier ++ [site]) rest

private theorem Site.firstError?_append (earlier : List Site) (first second : List (Site × Nat)) :
    firstError? earlier (first ++ second) =
      (firstError? earlier first).or (firstError? (earlier ++ first.map Prod.fst) second) := by
  induction first generalizing earlier with
  | nil => simp [firstError?]
  | cons placed rest ih =>
    obtain ⟨site, line⟩ := placed
    rw [List.cons_append, firstError?, firstError?]
    cases site.fault? earlier with
    | some fault => rfl
    | none => simpa using ih (earlier ++ [site])

private theorem Draft.numberedCode_fault {numbered : NumberedCommand} {generator stopped : Generator}
    {failure : Nat × LoweringError} {earlier : List Site}
    (records : generator.Records (earlier.flatMap Site.labels) (earlier.flatMap Site.statics))
    (failed : numberedCode numbered generator = .error failure stopped) :
    failure.1 = numbered.line ∧ (generator.site numbered.command).fault? earlier = some failure.2 := by
  simp only [numberedCode, EStateM.adaptExcept] at failed
  split at failed
  · rename_i fault left ran
    cases failed
    refine ⟨rfl, ?_⟩
    obtain failed | ⟨lines, middle, -, failed⟩ := Runs.state_bind_eq_error_iff.mp ran
    · exact Lowering.code_fault records failed
    · contradiction
  · contradiction

/-- Lowering a listing fails at the first command that offends. -/
theorem Draft.mapM_numberedCode_firstError (listing : Listing) {generator : Generator} {earlier : List Site}
    (records : generator.Records (earlier.flatMap Site.labels) (earlier.flatMap Site.statics)) :
    Site.firstError? earlier ((Site.ofCommands generator.unit generator.function generator.counter.next
        (listing.map NumberedCommand.command)).zip (listing.map NumberedCommand.line)) =
      match listing.mapM numberedCode generator with
      | .ok _ _ => none
      | .error (line, fault) _ => some ⟨generator.unit, line, .lowering fault⟩ := by
  induction listing generalizing generator earlier with
  | nil => rfl
  | cons numbered rest ih =>
    rw [List.map_cons, List.map_cons, Site.ofCommands, List.zip_cons_cons, Site.firstError?, List.mapM_cons]
    cases ran : numberedCode numbered generator with
    | error failure stopped =>
      obtain ⟨line, wrong⟩ := numberedCode_fault records ran
      rw [Generator.site] at wrong
      simp only [wrong, bind, EStateM.bind, ran, ← line]
    | ok lines middle =>
      obtain ⟨lowers, -⟩ := numberedCode_lowers ran
      have clear := Site.fault?_eq_none_iff.mpr (lowers.not_offends records)
      have later := @ih middle (earlier ++ [generator.site numbered.command])
        (by simpa using lowers.records _ _ records)
      rw [lowers.unit, lowers.function, lowers.number] at later
      rw [Generator.site] at clear later
      simp only [clear, later, bind, EStateM.bind, ran]
      cases rest.mapM numberedCode middle <;> rfl

private theorem Draft.add_firstError {draft : Draft} {before : List SourceUnit} (made : draft.MadeOf before)
    (unit : SourceUnit) :
    Site.firstError? (Site.ofUnits before) ((Site.ofCommands unit.name none (Site.numbered (Site.ofUnits before))
        unit.commands).zip (unit.listing.map NumberedCommand.line)) =
      match draft.add unit with
      | .ok _ => none
      | .error error => some error := by
  have lowered := mapM_numberedCode_firstError unit.listing (made.enterUnit_records unit.name)
  rw [add, append_eq]
  simp only [Generator.enterUnit, made.number] at lowered ⊢
  rw [SourceUnit.commands, lowered]
  cases unit.listing.mapM numberedCode _ <;> rfl

private theorem Site.length_ofCommands (unit : String) (function : Option String) (number : Nat)
    (commands : List Command) :
    (ofCommands unit function number commands).length = commands.length := by
  rw [← List.length_map (f := Site.command), map_command_ofCommands]

/-- Adding units one after the other fails at the first command that offends. -/
theorem Draft.foldlM_add_firstError {draft : Draft} {before : List SourceUnit} (made : draft.MadeOf before)
    (units : List SourceUnit) :
    Site.firstError? (Site.ofUnits before) ((Site.ofUnitsFrom (Site.numbered (Site.ofUnits before)) units).zip
        (SourceUnit.lineNumbers units)) =
      match units.foldlM (fun draft unit => return (← draft.add unit).1) draft with
      | .ok _ => none
      | .error error => some error := by
  induction units generalizing draft before with
  | nil => rfl
  | cons unit rest ih =>
    have lengths : (Site.ofCommands unit.name none (Site.numbered (Site.ofUnits before)) unit.commands).length =
        (unit.listing.map NumberedCommand.line).length := by
      rw [Site.length_ofCommands, SourceUnit.commands, List.length_map, List.length_map]
    rw [Site.ofUnitsFrom, SourceUnit.lineNumbers, List.flatMap_cons, List.zip_append lengths,
      Site.firstError?_append, add_firstError made, List.map_fst_zip lengths.le, ← Site.ofUnits_concat,
      List.foldlM_cons]
    cases added : draft.add unit with
    | error error => rfl
    | ok result =>
      obtain ⟨next, event⟩ := result
      have later := ih (add_madeOf added made).2
      rw [Site.ofUnits_concat, Site.numbered_append] at later
      rw [Option.none_or, Site.ofUnits_concat]
      exact later

/-- Linking fails at the first command that offends. -/
theorem link_firstError (options : BuildOptions) (units : List SourceUnit) :
    Site.firstError? [] (SourceUnit.placed units) =
      match link options units with
      | .ok _ => none
      | .error error => some error := by
  have added := Draft.foldlM_add_firstError (Draft.empty_madeOf options) units
  rw [link]
  cases ran : units.foldlM (fun draft unit => return (← draft.add unit).1) (Draft.empty options) with
  | error error =>
    rw [ran] at added
    exact added
  | ok draft =>
    rw [ran] at added
    exact added

theorem link_eq_error_iff {options : BuildOptions} {units : List SourceUnit} {error : UnitError} :
    link options units = .error error ↔ Site.firstError? [] (SourceUnit.placed units) = some error := by
  rw [link_firstError options units]
  cases link options units <;> simp

theorem exists_link_iff {options : BuildOptions} {units : List SourceUnit} :
    (∃ lines, link options units = .ok lines) ↔ Site.firstError? [] (SourceUnit.placed units) = none := by
  rw [link_firstError options units]
  cases link options units <;> simp

theorem Site.firstError?_eq_none_iff {earlier : List Site} {placed : List (Site × Nat)} :
    firstError? earlier placed = none ↔
      ∀ before site line after, placed = before ++ (site, line) :: after →
        ¬ site.Offends (earlier ++ before.map Prod.fst) := by
  constructor
  · rintro clear before site line after rfl
    rw [firstError?_append, Option.or_eq_none_iff, firstError?] at clear
    rw [← fault?_eq_none_iff]
    cases wrong : site.fault? (earlier ++ before.map Prod.fst) with
    | some fault => simp [wrong] at clear
    | none => rfl
  · intro clear
    induction placed generalizing earlier with
    | nil => rfl
    | cons first rest ih =>
      obtain ⟨site, line⟩ := first
      have here : ¬ site.Offends earlier := by simpa using clear [] site line rest rfl
      rw [firstError?, fault?_eq_none_iff.mpr here]
      apply ih
      rintro before other number after rfl
      simpa using clear ((site, line) :: before) other number after rfl

private theorem Site.firstError?_eq_some_iff {earlier : List Site} {placed : List (Site × Nat)} {error : UnitError} :
    firstError? earlier placed = some error ↔
      ∃ before site line after fault, placed = before ++ (site, line) :: after ∧
        firstError? earlier before = none ∧ site.fault? (earlier ++ before.map Prod.fst) = some fault ∧
        error = ⟨site.unit, line, .lowering fault⟩ := by
  constructor
  · intro failed
    induction placed generalizing earlier with
    | nil => contradiction
    | cons first rest ih =>
      obtain ⟨site, line⟩ := first
      rw [firstError?] at failed
      cases wrong : site.fault? earlier with
      | some fault =>
        rw [wrong] at failed
        cases failed
        exact ⟨[], site, line, rest, fault, rfl, rfl, by simpa using wrong, rfl⟩
      | none =>
        rw [wrong] at failed
        obtain ⟨before, other, number, after, fault, rfl, clear, later, rfl⟩ := ih failed
        refine ⟨(site, line) :: before, other, number, after, fault, rfl, ?_, by simpa using later, rfl⟩
        rw [firstError?, wrong]
        exact clear
  · rintro ⟨before, site, line, after, fault, rfl, clear, wrong, rfl⟩
    rw [firstError?_append, clear, Option.none_or, firstError?, wrong]

/-- Sites are numbered in order, from a number on. -/
def Site.NumberedFrom : Nat → List Site → Prop
  | _, [] => True
  | number, site :: rest =>
    site.number = number ∧ NumberedFrom (number + site.command.takesNumber.toNat) rest

private theorem Site.numberedFrom_append {number : Nat} {first second : List Site} :
    NumberedFrom number (first ++ second) ↔
      NumberedFrom number first ∧ NumberedFrom (number + numbered first) second := by
  induction first generalizing number with
  | nil => simp [NumberedFrom]
  | cons site rest ih => simp [NumberedFrom, ih, and_assoc, Nat.add_assoc]

private theorem Site.ofCommands_numberedFrom (unit : String) (function : Option String) (number : Nat)
    (commands : List Command) : NumberedFrom number (ofCommands unit function number commands) := by
  induction commands generalizing function number with
  | nil => trivial
  | cons command rest ih => exact ⟨rfl, ih _ _⟩

private theorem Site.ofUnitsFrom_numberedFrom (number : Nat) (units : List SourceUnit) :
    NumberedFrom number (ofUnitsFrom number units) := by
  induction units generalizing number with
  | nil => trivial
  | cons unit rest ih => exact numberedFrom_append.mpr ⟨ofCommands_numberedFrom .., ih _⟩

theorem SourceUnit.map_fst_placed (units : List SourceUnit) : (placed units).map Prod.fst = Site.ofUnits units := by
  apply List.map_fst_zip
  rw [← List.length_map (f := Site.command), Site.ofUnits, Site.map_command_ofUnitsFrom, lineNumbers]
  simp [commands]

/-- Linking fails iff some command offends, and the error tells the unit, the line and the fault of
the first one. -/
theorem link_fails_at_first_offence (options : BuildOptions) (units : List SourceUnit) :
    let placed := SourceUnit.placed units
    (∀ before site line after, placed = before ++ (site, line) :: after →
        site.number = (before.map fun earlier => earlier.1.command).countP Command.takesNumber) ∧
      ((∃ error, link options units = .error error) ↔
        ∃ before site line after, placed = before ++ (site, line) :: after ∧
          site.Offends (before.map Prod.fst)) ∧
      ∀ error, link options units = .error error ↔
        ∃ before site line after fault, placed = before ++ (site, line) :: after ∧
          (∀ first other number rest, before = first ++ (other, number) :: rest →
            ¬ other.Offends (first.map Prod.fst)) ∧
          site.fault? (before.map Prod.fst) = some fault ∧ error = ⟨site.unit, line, .lowering fault⟩ := by
  dsimp only
  refine ⟨?_, ?_, ?_⟩
  · intro before site line after split
    have numbered := Site.ofUnitsFrom_numberedFrom 0 units
    rw [← Site.ofUnits, ← SourceUnit.map_fst_placed, split, List.map_append,
      Site.numberedFrom_append] at numbered
    have here := numbered.2.1
    rw [Nat.zero_add, Site.numbered, List.countP_map] at here
    rw [List.countP_map]
    exact here
  · simp only [link_eq_error_iff]
    rw [← Option.isSome_iff_exists, ← not_iff_not, Option.not_isSome_iff_eq_none, Site.firstError?_eq_none_iff]
    simp
  · intro error
    rw [link_eq_error_iff, Site.firstError?_eq_some_iff]
    simp only [Site.firstError?_eq_none_iff, List.nil_append]

-- The static variable is spelled like a function of another unit.
example : link {} [.ofCommands "Main" [.function "X.0" 0], .ofCommands "X" [.ret, .pop .static 0]] =
    .error ⟨"X", 2, .lowering (.staticClash "X.0")⟩ := by
  decide +kernel

end HackVM
