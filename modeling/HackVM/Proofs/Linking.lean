import HackVM.Proofs.Sites

/-! # What linking gives

A draft holds the code of the sites of the units added to it, and its tables hold the names of these
sites. Units that have no code leave no trace. A finished program is a start, which is empty unless the
entry is called, and then the blocks of its sites one after the other.
-/

namespace HackVM

namespace Site

theorem map_command_ofCommands (unit : String) (function : Option String) (number : Nat)
    (commands : List Command) : (ofCommands unit function number commands).map Site.command = commands := by
  induction commands generalizing function number with
  | nil => rfl
  | cons command rest ih => rw [ofCommands, List.map_cons, ih]

theorem unit_of_mem_ofCommands {unit : String} {function : Option String} {number : Nat}
    {commands : List Command} {site : Site} (member : site ∈ ofCommands unit function number commands) :
    site.unit = unit := by
  induction commands generalizing function number with
  | nil => contradiction
  | cons command rest ih =>
    rcases List.mem_cons.mp member with rfl | later
    · rfl
    · exact ih later

theorem map_command_ofUnitsFrom (number : Nat) (units : List SourceUnit) :
    (ofUnitsFrom number units).map Site.command = units.flatMap SourceUnit.commands := by
  induction units generalizing number with
  | nil => rfl
  | cons unit rest ih =>
    rw [ofUnitsFrom, List.map_append, map_command_ofCommands, ih, List.flatMap_cons]

theorem ofUnitsFrom_append (number : Nat) (first second : List SourceUnit) :
    ofUnitsFrom number (first ++ second) =
      ofUnitsFrom number first ++ ofUnitsFrom (number + numbered (ofUnitsFrom number first)) second := by
  induction first generalizing number with
  | nil => rfl
  | cons unit rest ih =>
    simp only [List.cons_append, ofUnitsFrom, ih, List.append_assoc, numbered_append, Nat.add_assoc]

/-- A further unit adds its sites at the end. -/
theorem ofUnits_concat (units : List SourceUnit) (unit : SourceUnit) :
    ofUnits (units ++ [unit]) =
      ofUnits units ++ ofCommands unit.name none (numbered (ofUnits units)) unit.commands := by
  rw [ofUnits, ofUnitsFrom_append, ofUnitsFrom, ofUnitsFrom, List.append_nil, Nat.zero_add]
  rfl

end Site

namespace Draft

/-- A draft is made of units: its code and its tables are those of their sites. -/
structure MadeOf (draft : Draft) (units : List SourceUnit) : Prop where
  code : draft.code = (Site.ofUnits units).flatMap (Site.block draft.options.annotate)
  admitted : ∀ site ∈ Site.ofUnits units, site.command.Admitted
  number : draft.generator.counter.next = Site.numbered (Site.ofUnits units)
  annotate : draft.generator.annotate = draft.options.annotate
  records : draft.generator.Records ((Site.ofUnits units).flatMap Site.labels)
    ((Site.ofUnits units).flatMap Site.statics)
  entryDefined : draft.entryDefined = units.any fun unit => unit.defines draft.options.entry
  count : draft.units = units.length

/-- Turning to another unit leaves the tables. -/
theorem MadeOf.enterUnit_records {draft : Draft} {units : List SourceUnit} (made : draft.MadeOf units)
    (unit : String) :
    (draft.generator.enterUnit unit).Records ((Site.ofUnits units).flatMap Site.labels)
      ((Site.ofUnits units).flatMap Site.statics) :=
  ⟨made.records.defines, made.records.uses, made.records.distinct, made.records.apart⟩

theorem empty_madeOf (options : BuildOptions) : (empty options).MadeOf [] := by
  refine ⟨rfl, ?_, rfl, rfl, ⟨?_, ?_, ?_, ?_⟩, rfl, rfl⟩
  all_goals simp [empty, Site.ofUnits, Site.ofUnitsFrom, StaticTable.contains]

/-- Appending a unit adds the code of its commands, or fails and changes nothing. -/
theorem append_eq (unit : SourceUnit) (draft : Draft) :
    append unit draft =
      match unit.listing.mapM numberedCode (draft.generator.enterUnit unit.name) with
      | .error (line, error) _ => .error ⟨unit.name, line, .lowering error⟩ draft
      | .ok blocks generator =>
        .ok (.loweredUnit unit.name unit.listing.length blocks.flatten.length)
          { draft with
            generator
            code := draft.code ++ blocks.flatten
            units := draft.units + 1
            entryDefined := draft.entryDefined || unit.defines draft.options.entry } := by
  cases lowered : unit.listing.mapM numberedCode (draft.generator.enterUnit unit.name) with
  | error failure stopped => simp only [append, bind, EStateM.bind, restoring, lowerUnit, lowered]
  | ok blocks generator =>
    simp only [append, bind, EStateM.bind, restoring, lowerUnit, lowered]
    rfl

theorem add_eq_ok_iff {draft next : Draft} {unit : SourceUnit} {event : Event} :
    draft.add unit = .ok (next, event) ↔ append unit draft = .ok event next := by
  rw [add]
  split <;> simp_all [and_comm]

/-- Adding a unit that has code keeps the options and adds the sites of the unit. -/
theorem add_madeOf {draft next : Draft} {unit : SourceUnit} {event : Event} {units : List SourceUnit}
    (success : draft.add unit = .ok (next, event)) (made : draft.MadeOf units) :
    next.options = draft.options ∧ next.MadeOf (units ++ [unit]) := by
  rw [add_eq_ok_iff, append_eq] at success
  split at success
  · contradiction
  · rename_i blocks generator lowered
    cases success
    have lowers := mapM_numberedCode_lowers lowered
    simp only [Generator.enterUnit, made.number] at lowers
    have sites := Site.ofUnits_concat units unit
    rw [SourceUnit.commands] at sites
    refine ⟨rfl, ?_, ?_, ?_, ?_, ?_, ?_, ?_⟩
    · rw [sites, List.flatMap_append, made.code, lowers.blocks, made.annotate]
      rfl
    · rw [sites, List.forall_mem_append]
      exact ⟨made.admitted, lowers.admitted⟩
    · rw [sites, lowers.number, Site.numbered_append, ← made.number]
    · rw [lowers.annotate, made.annotate]
    · rw [sites, List.flatMap_append, List.flatMap_append]
      exact lowers.records _ _ (made.enterUnit_records unit.name)
    · rw [List.any_append, made.entryDefined]
      simp
    · rw [List.length_append, ← made.count]
      rfl

/-- A draft to which units were added without a failure is made of them. -/
theorem foldlM_add_madeOf {options : BuildOptions} {units : List SourceUnit} {draft : Draft}
    (added : units.foldlM (fun draft unit => return (← draft.add unit).1) (empty options) = .ok draft) :
    draft.options = options ∧ draft.MadeOf units := by
  refine Runs.foldlM_invariant added (fun before draft => draft.options = options ∧ draft.MadeOf before)
    ⟨rfl, empty_madeOf options⟩ ?_
  rintro before unit current next - ⟨same, made⟩ step
  obtain ⟨⟨result, event⟩, added, returned⟩ := Runs.bind_eq_ok_iff.mp step
  cases returned
  obtain ⟨options, more⟩ := add_madeOf added made
  exact ⟨options.trans same, more⟩

/-- A unit that cannot be appended leaves the draft as it was. -/
theorem append_eq_error {unit : SourceUnit} {draft left : Draft} {error : UnitError}
    (failed : append unit draft = .error error left) : left = draft := by
  rw [append_eq] at failed
  split at failed
  · cases failed
    rfl
  · contradiction

/-- Append units in place one after the other, going on after each failure with the draft that it left.
The units that were appended are returned as well. -/
def appendEach : Draft → List SourceUnit → Draft × List SourceUnit
  | draft, [] => (draft, [])
  | draft, unit :: rest =>
    match append unit draft with
    | .error _ left => left.appendEach rest
    | .ok _ next =>
      let (final, appended) := next.appendEach rest
      (final, unit :: appended)

/-- The units that a session appends can be added one after the other to the same effect. -/
theorem appendEach_adds (draft : Draft) (units : List SourceUnit) :
    let session := draft.appendEach units
    session.2.Sublist units ∧
      session.2.foldlM (fun draft unit => return (← draft.add unit).1) draft = .ok session.1 := by
  induction units generalizing draft with
  | nil => exact ⟨.refl _, rfl⟩
  | cons unit rest ih =>
    rw [appendEach]
    cases ran : append unit draft with
    | error error left =>
      rw [append_eq_error ran]
      exact ⟨(ih draft).1.cons unit, (ih draft).2⟩
    | ok event next =>
      obtain ⟨sublist, added⟩ := ih next
      refine ⟨sublist.cons_cons unit, Runs.foldlM_cons_eq_ok_iff.mpr ⟨next, ?_, added⟩⟩
      rw [add_eq_ok_iff.mpr ran]
      rfl

/-- The code in front of the units. -/
def start (draft : Draft) : List Line :=
  if draft.options.bootstrap.wanted draft.entryDefined then (draft.generator.bootstrap draft.options.entry).1
  else []

theorem finish_lines (draft : Draft) : draft.finish.1 = draft.start ++ draft.code := by
  cases wanted : draft.options.bootstrap.wanted draft.entryDefined <;> simp [finish, start, wanted]

end Draft

namespace Line

@[simp] theorem legible_comment (text : String) : (comment text).Legible := trivial

@[simp] theorem legible_label (name : String) : (label name).Legible ↔ Text.Solid name.toList := .rfl

@[simp] theorem legible_number (value : Word) : (number value).Legible := trivial

@[simp] theorem legible_symbol (name : String) : (symbol name).Legible ↔ IsSymbol name := .rfl

@[simp] theorem legible_store (dest : Dest) (comp : Comp) : (store dest comp).Legible := trivial

@[simp] theorem legible_jump (comp : Comp) (condition : Jump) : (jump comp condition).Legible := trivial

end Line

/-- The named cells that templates use. -/
@[simp] theorem isSymbol_cells : IsSymbol "SP" ∧ IsSymbol "LCL" ∧ IsSymbol "ARG" ∧ IsSymbol "THIS" ∧
    IsSymbol "THAT" ∧ IsSymbol "R13" ∧ IsSymbol "R14" := by
  refine ⟨?_, ?_, ?_, ?_, ?_, ?_, ?_⟩ <;> exact IsIdentifier.isSymbol (by decide)

private theorem isSymbol_pointer (pointer : Pointer) : IsSymbol pointer.symbol := by
  cases pointer <;> simp [Pointer.symbol]

private theorem isSymbol_register (index : Word) : IsSymbol ("R" ++ index.decimal) := by
  have letter : Text.Solid ['R'] := .of_forall (by decide)
  have digits : Text.Solid index.decimal.toList := .of_digits fun _ => isDigit_of_mem_repr
  constructor
  · rw [String.toList_append]
    exact letter.append digits (.inl (by simp))
  · simp

namespace Template

private theorem legible_pushCell {name : String} (named : IsSymbol name) : ∀ line ∈ pushCell name, line.Legible := by
  simp [pushCell, pushD, named]

private theorem legible_restore (pointer : Pointer) : ∀ line ∈ restore pointer, line.Legible := by
  simp [restore, isSymbol_pointer]

/-- In a call only the name of the callee may be illegible. -/
theorem legible_call {returnPoint : String} (point : IsSymbol returnPoint) (name : String) (arguments : Word) :
    ∀ line ∈ call name arguments returnPoint, line = .symbol name ∨ line.Legible := by
  rw [call]
  simp only [List.forall_mem_append, List.forall_mem_flatMap]
  refine ⟨⟨⟨⟨?_, ?_⟩, ?_⟩, ?_⟩, ?_⟩
  · simp [pushAddress, pushD, point]
  · exact fun pointer _ line member => .inr (legible_pushCell (isSymbol_pointer pointer) line member)
  · simp
  · simp [goto]
  · simp [point.solid]

private theorem legible_ret : ∀ line ∈ ret, line.Legible := by
  rw [ret]
  simp only [List.forall_mem_append, List.forall_mem_flatMap]
  refine ⟨⟨⟨⟨?_, ?_⟩, ?_⟩, ?_⟩, ?_⟩
  · simp
  · simp [popD]
  · simp
  · exact fun pointer _ => legible_restore pointer
  · simp

end Template

namespace Site

/-- The names at a site come from a solid unit name and from identifiers. -/
structure WellNamed (site : Site) : Prop where
  unit : Text.Solid site.unit.toList
  function : ∀ name ∈ site.function, IsIdentifier name
  command : site.command.WellNamed

private theorem ofCommands_wellNamed {unit : String} (solid : Text.Solid unit.toList) {function : Option String}
    (around : ∀ name ∈ function, IsIdentifier name) (number : Nat) {commands : List Command}
    (named : ∀ command ∈ commands, command.WellNamed) :
    ∀ site ∈ ofCommands unit function number commands, site.WellNamed := by
  induction commands generalizing function number with
  | nil => simp [ofCommands]
  | cons command rest ih =>
    obtain ⟨first, others⟩ := List.forall_mem_cons.mp named
    rw [ofCommands, List.forall_mem_cons]
    refine ⟨⟨solid, around, first⟩, ih ?_ _ others⟩
    intro name entered
    cases command with
    | function own locals =>
      cases entered
      exact first name (List.mem_singleton_self name)
    | arithmetic | push | pop | label | goto | ifGoto | call | ret => exact around name entered

theorem ofUnits_wellNamed {units : List SourceUnit} (solid : ∀ unit ∈ units, Text.Solid unit.name.toList)
    (named : ∀ unit ∈ units, unit.WellNamed) : ∀ site ∈ ofUnits units, site.WellNamed := by
  have all : ∀ number, ∀ site ∈ ofUnitsFrom number units, site.WellNamed := by
    induction units with
    | nil => simp [ofUnitsFrom]
    | cons unit rest ih =>
      intro number
      rw [List.forall_mem_cons] at solid named
      rw [ofUnitsFrom, List.forall_mem_append]
      refine ⟨ofCommands_wellNamed solid.1 (by simp) number ?_, ih solid.2 named.2 _⟩
      intro command member
      obtain ⟨numbered, listed, rfl⟩ := List.mem_map.mp member
      exact named.1 numbered listed
  exact all 0

theorem WellNamed.scope {site : Site} (named : site.WellNamed) : Text.Solid site.scope.toList := by
  rw [Site.scope]
  cases around : site.function with
  | none => exact named.unit
  | some name => exact (named.function name around).solid

/-- The name of a source label can be referred to. -/
theorem WellNamed.label {site : Site} (named : site.WellNamed) {name : String}
    (mentioned : name ∈ site.command.names) : IsSymbol (site.labelName name) :=
  isSymbol_inScope named.scope (named.command name mentioned).solid

theorem WellNamed.generated {site : Site} (named : site.WellNamed) (purpose : Label.Purpose) :
    IsSymbol (site.generated purpose) :=
  isSymbol_generated named.unit purpose site.number

private theorem place_legible {unit : String} (solid : Text.Solid unit.toList) (segment : Segment) (index : Word) :
    ∀ name, segment.place unit index = .direct name → IsSymbol name := by
  rintro name location
  cases segment with
  | static =>
    cases location
    exact isSymbol_staticSymbol solid index
  | pointer =>
    cases location
    split <;> exact isSymbol_pointer _
  | temp =>
    cases location
    exact isSymbol_register _
  | constant | locals | argument | this | that => contradiction

/-- The code of a command can be read back, if its names can. -/
theorem WellNamed.code_legible {site : Site} (named : site.WellNamed) : ∀ line ∈ site.code, line.Legible := by
  obtain ⟨unit, function, number, command⟩ := site
  have generated := named.generated
  have mentioned : ∀ name ∈ command.names, IsSymbol name :=
    fun name member => (named.command name member).isSymbol
  have label := @named.label
  cases command with
  | arithmetic operator =>
    cases operator with
    | eq | gt | lt =>
      simp [Site.code, Site.arithmetic, comparison, Template.comparison, Template.popD, generated,
        (generated _).solid]
    | add | sub | and | or | neg | not =>
      simp [Site.code, Site.arithmetic, Template.binary, Template.popD, Template.unary]
  | push segment index =>
    have place := place_legible named.unit segment index
    simp only [Site.code]
    cases location : segment.place unit index with
    | immediate value => simp [Template.push, Template.pushD]
    | indirect base offset => simp [Template.push, Template.pushD, isSymbol_pointer]
    | direct name => simp [Template.push, Template.pushCell, Template.pushD, place name location]
  | pop segment index =>
    have place := place_legible named.unit segment index
    simp only [Site.code]
    cases location : segment.place unit index with
    | immediate value => simp [popInto]
    | indirect base offset => simp [popInto, Template.popIndirect, Template.popD, isSymbol_pointer]
    | direct name => simp [popInto, Template.popCell, Template.popD, place name location]
  | label name => simpa [Site.code] using (label (by simp [Command.names])).solid
  | goto name => simpa [Site.code, Template.goto] using label (by simp [Command.names])
  | ifGoto name => simpa [Site.code, Template.ifGoto, Template.popD] using label (by simp [Command.names])
  | function name locals =>
    simp only [Site.code, Template.function, List.forall_mem_cons, List.forall_mem_flatten]
    refine ⟨(mentioned name (by simp [Command.names])).solid, ?_⟩
    intro push repeated
    rw [List.eq_of_mem_replicate repeated]
    simp
  | call name arguments =>
    intro line member
    rcases Template.legible_call (generated .returnPoint) name arguments line member with rfl | legible
    · exact mentioned name (by simp [Command.names])
    · exact legible
  | ret => exact Template.legible_ret

theorem WellNamed.block_legible {site : Site} (named : site.WellNamed) (annotate : Bool) :
    ∀ line ∈ site.block annotate, line.Legible := by
  rw [block]
  split
  · simpa using named.code_legible
  · exact named.code_legible

end Site

/-- Whether a program calls its entry. -/
def BuildOptions.callsEntry (options : BuildOptions) (units : List SourceUnit) : Bool :=
  options.bootstrap.wanted (units.any fun unit => unit.defines options.entry)

theorem SourceUnit.defines_iff {unit : SourceUnit} {function : String} :
    unit.defines function = true ↔ ∃ locals, .function function locals ∈ unit.commands := by
  rw [defines, List.any_eq_true, commands]
  constructor
  · rintro ⟨⟨line, command⟩, listed, named⟩
    cases command with
    | function name locals =>
      rw [beq_iff_eq] at named
      exact ⟨locals, List.mem_map.mpr ⟨_, listed, by rw [named]⟩⟩
    | arithmetic | push | pop | label | goto | ifGoto | call | ret => contradiction
  · rintro ⟨locals, member⟩
    obtain ⟨numbered, listed, command⟩ := List.mem_map.mp member
    exact ⟨numbered, listed, by rw [command]; exact beq_self_eq_true function⟩

/-- In automatic mode the entry is called iff a unit defines it. -/
theorem BuildOptions.callsEntry_iff_exists {options : BuildOptions} {units : List SourceUnit}
    (automatic : options.bootstrap = .auto) :
    options.callsEntry units = true ↔ ∃ unit ∈ units, ∃ locals, .function options.entry locals ∈ unit.commands := by
  rw [callsEntry, automatic, BootstrapMode.wanted, List.any_eq_true]
  exact exists_congr fun unit => and_congr_right' SourceUnit.defines_iff

/-- The number of instructions in front of the units. -/
def BuildOptions.startSize (options : BuildOptions) (units : List SourceUnit) : Nat :=
  if options.callsEntry units then Line.size (Template.initStack ++ Template.call options.entry 0 "") else 0

private theorem Template.size_call (name : String) (arguments : Word) (returnPoint : String) :
    Line.size (call name arguments returnPoint) = 42 := rfl

private theorem Draft.MadeOf.size_start {draft : Draft} {units : List SourceUnit} (made : draft.MadeOf units) :
    Line.size draft.start = draft.options.startSize units := by
  rw [start, BuildOptions.startSize, BuildOptions.callsEntry, made.entryDefined]
  split
  · simp only [Generator.bootstrap, Line.size_append, Template.size_call]
    cases draft.generator.annotate <;> simp
  · rfl

/-- A program that links is the finish of a draft made of its units. -/
theorem link_eq_ok {options : BuildOptions} {units : List SourceUnit} {lines : List Line}
    (linked : link options units = .ok lines) :
    ∃ draft : Draft, draft.options = options ∧ draft.MadeOf units ∧ lines = draft.start ++ draft.code := by
  obtain ⟨draft, added, finished⟩ := Runs.bind_eq_ok_iff.mp linked
  cases finished
  obtain ⟨same, made⟩ := Draft.foldlM_add_madeOf added
  exact ⟨draft, same, made, draft.finish_lines⟩

/-- Linking fails where adding the units does. -/
theorem link_eq_error_iff_foldlM {options : BuildOptions} {units : List SourceUnit} {error : UnitError} :
    link options units = .error error ↔
      units.foldlM (fun draft unit => return (← draft.add unit).1) (Draft.empty options) = .error error := by
  rw [link, Runs.bind_eq_error_iff]
  exact or_iff_left fun ⟨_, _, finished⟩ => by contradiction

/-- Linking fails at the first unit that has no code after those before it. -/
theorem link_eq_error_iff_add {options : BuildOptions} {units : List SourceUnit} {error : UnitError} :
    link options units = .error error ↔
      ∃ before unit after draft, units = before ++ unit :: after ∧
        before.foldlM (fun draft unit => return (← draft.add unit).1) (Draft.empty options) = .ok draft ∧
        draft.add unit = .error error := by
  have step (draft : Draft) (unit : SourceUnit) :
      (do return (← draft.add unit).1 : Except UnitError Draft) = .error error ↔ draft.add unit = .error error := by
    rw [Runs.bind_eq_error_iff]
    exact or_iff_left fun ⟨_, _, returned⟩ => by contradiction
  rw [link_eq_error_iff_foldlM, Runs.foldlM_eq_error_iff]
  simp only [step]

/-- The code of every command stands in a linked program. -/
theorem link_code {options : BuildOptions} {units : List SourceUnit} {lines : List Line}
    (linked : link options units = .ok lines) {site : Site} (member : site ∈ Site.ofUnits units) :
    site.code <:+: lines := by
  obtain ⟨draft, rfl, made, rfl⟩ := link_eq_ok linked
  have block : site.code <:+ site.block draft.options.annotate := by
    rw [Site.block]
    split
    · exact List.suffix_cons ..
    · exact List.suffix_rfl
  have inCode : site.block draft.options.annotate <:+: draft.code := by
    rw [made.code]
    exact List.infix_of_mem_flatten (List.mem_map_of_mem member)
  exact block.isInfix.trans (inCode.trans (List.suffix_append ..).isInfix)

/-- In front of the units only the name of the entry may be illegible. -/
theorem Draft.start_legible (draft : Draft) :
    ∀ line ∈ draft.start, line = .symbol draft.options.entry ∨ line.Legible := by
  have point : ∀ number, IsSymbol (Label.generated Generator.bootstrapOwner .returnPoint number) :=
    isSymbol_generated (IsIdentifier.solid (by decide)) .returnPoint
  rw [start]
  split
  · simp only [Generator.bootstrap, List.forall_mem_append]
    refine ⟨⟨⟨?_, ?_⟩, ?_⟩, Template.legible_call (point _) _ _⟩
    · split <;> simp
    · simp [Template.initStack]
    · split <;> simp
  · simp

namespace Site

/-- The number of instructions of sites. -/
def size (sites : List Site) : Nat := Line.size (sites.flatMap Site.code)

@[simp] theorem size_cons (site : Site) (rest : List Site) :
    size (site :: rest) = Line.size site.code + size rest := by
  simp [size]

@[simp] theorem size_append (first second : List Site) : size (first ++ second) = size first + size second := by
  simp [size]

private theorem size_flatMap_block (annotate : Bool) (sites : List Site) :
    Line.size (sites.flatMap (block annotate)) = size sites := by
  induction sites with
  | nil => rfl
  | cons site rest ih =>
    rw [List.flatMap_cons, Line.size_append, ih, size_cons, block]
    split <;> simp

end Site

/-- An image holds the code of sites one after the other, from a base on, and the names that every
program knows. -/
structure Image.Holds (image : Image) (base : Nat) (sites : List Site) : Prop where
  code : ∀ before site after, sites = before ++ site :: after →
    image.CodeAt (base + Site.size before) site.code
  predefined : image.symbols.Extends Image.predefined
  size : image.instructions.size = base + Site.size sites

/-- The size of a linked program. -/
theorem link_size {options : BuildOptions} {units : List SourceUnit} {lines : List Line}
    (linked : link options units = .ok lines) :
    Line.size lines = options.startSize units + Site.size (Site.ofUnits units) := by
  obtain ⟨draft, rfl, made, rfl⟩ := link_eq_ok linked
  rw [Line.size_append, made.size_start, made.code, Site.size_flatMap_block]

section Linked

variable {options : BuildOptions} {units : List SourceUnit} {lines : List Line}
  (solid : ∀ unit ∈ units, Text.Solid unit.name.toList) (named : ∀ unit ∈ units, unit.WellNamed)
  (linked : link options units = .ok lines)

include solid named linked

theorem link_fits : ∀ line ∈ lines, line.Fits := by
  obtain ⟨draft, rfl, made, rfl⟩ := link_eq_ok linked
  rw [made.code, List.forall_mem_append]
  constructor
  · intro line member
    rcases draft.start_legible line member with rfl | legible
    · exact Line.fits_symbol _
    · exact legible.fits
  · intro line member
    obtain ⟨site, present, member⟩ := List.mem_flatMap.mp member
    exact ((Site.ofUnits_wellNamed solid named site present).block_legible _ line member).fits

/-- A program that links and assembles is in the image, each site at its address. -/
theorem link_holds {image : Image} (assembled : Image.assemble (lines.map Line.render) = .ok image) :
    image.Holds (options.startSize units) (Site.ofUnits units) := by
  have fits := link_fits solid named linked
  have sites := Site.ofUnits_wellNamed solid named
  refine ⟨?_, Image.assemble_predefined assembled, ?_⟩
  · obtain ⟨draft, rfl, made, rfl⟩ := link_eq_ok linked
    intro before site after whole
    have legible := (sites site (by simp [whole])).block_legible draft.options.annotate
    have here : draft.start ++ draft.code =
        (draft.start ++ before.flatMap (Site.block draft.options.annotate)) ++
          site.block draft.options.annotate ++ after.flatMap (Site.block draft.options.annotate) := by
      rw [made.code, whole]
      simp
    have placed := Image.assemble_codeAt assembled fits here legible
    rw [Line.size_append, made.size_start, Site.size_flatMap_block, Site.block] at placed
    split at placed <;> exact placed
  · rw [Image.assemble_size assembled fits, link_size linked]

end Linked

end HackVM
