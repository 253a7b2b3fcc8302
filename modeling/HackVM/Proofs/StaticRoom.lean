import Mathlib.Data.List.Dedup
import HackVM.Proofs.Assembling
import HackVM.Proofs.Offences
import HackVM.Proofs.References

/-! # The room for static variables

The cells of variables start behind the registers and the stack starts at a fixed cell, so there is room for a
fixed number of variables between them. Nothing keeps a program to that number: a static variable lies below the
stack exactly if few enough variables are met before it. Jumps and calls to labels that are nowhere defined make
variables too. In a program that defines all its targets the variables are its static variables, and all of them
lie below the stack iff there is room for that many.
-/

namespace HackVM

section Linked

variable {options : BuildOptions} {units : List SourceUnit} {lines : List Line}
  (solid : ∀ unit ∈ units, Text.Solid unit.name.toList) (named : ∀ unit ∈ units, unit.WellNamed)
  (linked : link options units = .ok lines)

include solid named linked

section Closed

variable (closed : ∀ name ∈ options.targets units, name ∈ Line.labels lines)

include closed

/-- The variables of a program that defines all its targets are its static variables. -/
theorem link_variable_iff {name : String} :
    name ∈ Statement.variableNames (Line.statements lines) ↔ name ∈ (Site.ofUnits units).flatMap Site.statics := by
  have fits := link_fits solid named linked
  have label : ∀ name ∈ Line.labels lines, Text.Solid name.toList := fun name => Line.solid_of_mem_labels fits
  have symbols : ∀ name ∈ Line.symbols lines, Text.Solid name.toList := by
    intro name refers
    rcases link_symbols linked refers with predefined | defined | static | target
    · exact Image.solid_of_mem_predefined predefined
    · exact label name defined
    · obtain ⟨site, member, used⟩ := List.mem_flatMap.mp static
      obtain ⟨index, offset, -, rfl⟩ := Site.exists_use_of_mem_statics used
      exact (isSymbol_staticSymbol (Site.ofUnits_wellNamed solid named site member).unit index).solid
    · exact label name (closed name target)
  constructor
  · intro unknown
    obtain ⟨refers, unknown⟩ := Statement.mem_unknowns_iff.mp unknown
    rw [Bool.or_eq_false_iff] at unknown
    obtain ⟨fresh, unlabelled⟩ := unknown
    have undefined : name ∉ Line.labels lines := by
      intro defined
      have member := Line.label_mem_statements (label name defined) defined
      rw [List.contains_iff_mem.mpr member] at unlabelled
      contradiction
    rcases link_symbols linked (Line.mem_symbols_of_reference fits symbols refers) with
      predefined | defined | static | target
    · exact absurd (fresh.symm.trans predefined) Bool.false_ne_true
    · exact absurd defined undefined
    · exact static
    · exact absurd (closed name target) undefined
  · exact link_static_variable solid named linked

/-- A program that defines all its targets has as many variables as static variables. -/
theorem link_variables_length :
    (Statement.variableNames (Line.statements lines)).length =
      ((Site.ofUnits units).flatMap Site.statics).dedup.length := by
  have distinct := Statement.variableNames_nodup (Line.statements lines)
  refine ((List.perm_ext_iff_of_nodup distinct (List.nodup_dedup _)).mpr fun name => ?_).length_eq
  rw [List.mem_dedup]
  exact link_variable_iff solid named linked closed

end Closed

variable {image : Image} (assembled : Image.assemble (lines.map Line.render) = .ok image)

include assembled

/-- A static variable lies below the stack iff fewer variables than there is room for are met before it. -/
theorem link_static_below_iff {name : String} (used : name ∈ (Site.ofUnits units).flatMap Site.statics) :
    (∃ address, image.addressOf name = .ok address ∧ address < Template.stackBase) ↔
      (Statement.variableNames (Line.statements lines)).idxOf name < 240 := by
  obtain ⟨address, found, cell⟩ := link_static_cell solid named linked assembled used
  have known : image.addressOf name = .ok address := by rw [Image.addressOf, found]
  have base : address < Template.stackBase ↔ address.toNat < 256 := BitVec.lt_def
  rw [Image.firstVariable] at cell
  constructor
  · rintro ⟨other, same, below⟩
    rw [known, Except.ok.injEq] at same
    rw [← same, base] at below
    omega
  · intro early
    refine ⟨address, known, base.mpr ?_⟩
    omega

/-- In a program that defines all its targets, all static variables lie below the stack iff there is room for
them. -/
theorem link_statics_below_iff (closed : ∀ name ∈ options.targets units, name ∈ Line.labels lines) :
    (∀ name ∈ (Site.ofUnits units).flatMap Site.statics,
        ∃ address, image.addressOf name = .ok address ∧ address < Template.stackBase) ↔
      ((Site.ofUnits units).flatMap Site.statics).dedup.length ≤ 240 := by
  have length := link_variables_length solid named linked closed
  constructor
  · intro below
    by_contra many
    -- The static variable that is met after 240 others does not lie below.
    have room : 240 < (Statement.variableNames (Line.statements lines)).length := by omega
    have used := (link_variable_iff solid named linked closed).mp (List.getElem_mem room)
    have early := (link_static_below_iff solid named linked assembled used).mp (below _ used)
    rw [(Statement.variableNames_nodup _).idxOf_getElem 240 room] at early
    exact absurd early (Nat.lt_irrefl 240)
  · intro few name used
    have early := List.idxOf_lt_length_of_mem (link_static_variable solid named linked used)
    exact (link_static_below_iff solid named linked assembled used).mpr (by omega)

end Linked

/-- A static variable lies below the stack iff fewer than 240 variables are met before it. -/
theorem statics_below_stack_iff {options : BuildOptions} {sources : List (String × String)}
    {units : List SourceUnit} {lines : List Line} {image : Image}
    (solid : ∀ source ∈ sources, Text.Solid source.1.toList)
    (read : sources.mapM (fun (name, source) => SourceUnit.ofSource name source) = .ok units)
    (linked : linkSources options sources = .ok lines)
    (assembled : Image.assemble (lines.map Line.render) = .ok image) :
    let names := Statement.variableNames (Line.statements lines)
    let statics := (Site.ofUnits units).flatMap Site.statics
    let below (name : String) := ∃ address, image.addressOf name = .ok address ∧ address < Template.stackBase
    (∀ name ∈ statics, name ∈ names ∧
        (∃ address, image.addressOf name = .ok address ∧ address.toNat = 16 + names.idxOf name) ∧
        (below name ↔ names.idxOf name < 240)) ∧
      ((∀ name ∈ options.targets units, name ∈ Line.labels lines) →
        ((∀ name ∈ statics, below name) ↔ statics.dedup.length ≤ 240)) := by
  intro names statics below
  have wellNamed := SourceUnit.ofSources_wellNamed read solid
  have solid := fun unit member => (wellNamed unit member).1
  have named := fun unit member => (wellNamed unit member).2
  rw [linkSources, read] at linked
  refine ⟨fun name used => ⟨link_static_variable solid named linked used, ?_, ?_⟩, ?_⟩
  · obtain ⟨address, found, cell⟩ := link_static_cell solid named linked assembled used
    exact ⟨address, by rw [Image.addressOf, found], cell⟩
  · exact link_static_below_iff solid named linked assembled used
  · exact link_statics_below_iff solid named linked assembled

/-- A function that calls itself in a loop, and static variables of two units. -/
def cyclingSources : List (String × String) :=
  [("Main", "function f 0\nlabel L\npush static 3\ncall f 0\ngoto L"), ("Lib", "pop static 3")]

/-- The program defines its targets and has two static variables, which lie below the stack. -/
theorem statics_below_stack_cyclingSources :
    ∃ units lines image, cyclingSources.mapM (fun (name, source) => SourceUnit.ofSource name source) = .ok units ∧
      linkSources {} cyclingSources = .ok lines ∧ Image.assemble (lines.map Line.render) = .ok image ∧
      Statement.variableNames (Line.statements lines) = ["Main.3", "Lib.3"] ∧
      (∀ name ∈ BuildOptions.targets {} units, name ∈ Line.labels lines) ∧
      (∃ address, image.addressOf "Lib.3" = .ok address ∧ address.toNat = 17) ∧
      ∀ name ∈ ["Main.3", "Lib.3"], ∃ address, image.addressOf name = .ok address ∧ address < Template.stackBase := by
  have solid : ∀ source ∈ cyclingSources, Text.Solid source.1.toList := by
    simp only [cyclingSources, List.forall_mem_cons]
    exact ⟨IsIdentifier.solid (by decide), IsIdentifier.solid (by decide), by simp⟩
  obtain ⟨units, read, facts⟩ := @Runs.exists_of_any _ _
    (cyclingSources.mapM fun (name, source) => SourceUnit.ofSource name source)
    (fun units => (Site.ofUnits units).flatMap Site.statics = ["Main.3", "Lib.3"] &&
      BuildOptions.targets {} units = ["f", "f$L"]) (by decide +kernel)
  simp only [Bool.and_eq_true, decide_eq_true_eq] at facts
  obtain ⟨statics, targets⟩ := facts
  obtain ⟨lines, linked, facts⟩ := @Runs.exists_of_any _ _ (linkSources {} cyclingSources)
    (fun lines => Statement.variableNames (Line.statements lines) = ["Main.3", "Lib.3"] &&
      decide (["f", "f$L"] ⊆ Line.labels lines) && (Image.assemble (lines.map Line.render)).toOption.isSome)
    (by decide +kernel)
  simp only [Bool.and_eq_true, decide_eq_true_eq] at facts
  obtain ⟨⟨names, defined⟩, assembles⟩ := facts
  obtain ⟨image, assembled, -⟩ := @Runs.exists_of_any _ _ (Image.assemble (lines.map Line.render)) (fun _ => true)
    (by simpa [Option.any_true] using assembles)
  have closed : ∀ name ∈ BuildOptions.targets {} units, name ∈ Line.labels lines := by
    rw [targets]
    exact fun name target => defined target
  obtain ⟨cells, room⟩ := statics_below_stack_iff solid read linked assembled
  rw [names, statics] at cells
  rw [statics] at room
  obtain ⟨-, place, -⟩ := cells "Lib.3" (by decide)
  exact ⟨units, lines, image, read, linked, assembled, names, closed, place, (room closed).mpr (by decide)⟩

/-- Linking succeeds if all operands are in range and no command defines a label. -/
theorem exists_link_of_unlabelled (options : BuildOptions) {units : List SourceUnit}
    (fine : ∀ site ∈ Site.ofUnits units, site.command.operandFault? = none)
    (unlabelled : ∀ site ∈ Site.ofUnits units, site.labels = []) : ∃ lines, link options units = .ok lines := by
  rw [exists_link_iff, Site.firstError?_eq_none_iff]
  intro before site line after split offends
  have sites := SourceUnit.map_fst_placed units
  rw [split, List.map_append, List.map_cons] at sites
  have here : site ∈ Site.ofUnits units := by simp [← sites]
  rcases offends with wrong | ⟨name, defined, -⟩ | ⟨name, -, label⟩
  · exact wrong (fine site here)
  · rw [unlabelled site here] at defined
    contradiction
  · obtain ⟨other, earlier, defined⟩ := List.mem_flatMap.mp label
    rw [unlabelled other (by simp only [← sites]; exact List.mem_append_left _ earlier)] at defined
    contradiction

private theorem Site.size_le {sites : List Site} {bound : Nat} (each : ∀ site ∈ sites, Line.size site.code ≤ bound) :
    size sites ≤ bound * sites.length := by
  induction sites with
  | nil => exact Nat.zero_le _
  | cons site rest ih =>
    obtain ⟨first, others⟩ := List.forall_mem_cons.mp each
    have later := ih others
    rw [size_cons, List.length_cons, Nat.mul_succ]
    omega

section Pushes

variable {units : List SourceUnit}
  (pushes : ∀ command ∈ units.flatMap SourceUnit.commands, ∃ index, command = .push .static index)

include pushes

private theorem Site.push_of_mem {site : Site} (member : site ∈ ofUnits units) :
    ∃ index, site.command = .push .static index := by
  apply pushes
  rw [← map_command_ofUnitsFrom 0]
  exact List.mem_map_of_mem member

/-- A program that only pushes static variables has no targets. -/
theorem targets_of_pushes : BuildOptions.targets {} units = [] := by
  have uncalled : BuildOptions.callsEntry {} units = false := by
    refine List.any_eq_false.mpr fun unit added defined => ?_
    obtain ⟨locals, present⟩ := SourceUnit.defines_iff.mp defined
    obtain ⟨index, same⟩ := pushes _ (List.mem_flatMap_of_mem added present)
    cases same
  rw [BuildOptions.targets, uncalled, List.append_eq_nil_iff, List.flatMap_eq_nil_iff]
  refine ⟨rfl, fun site member => ?_⟩
  obtain ⟨index, command⟩ := Site.push_of_mem pushes member
  rw [Site.targets, command]

/-- A program that only pushes static variables links and assembles, up to a size. -/
theorem exists_image_of_pushes (solid : ∀ unit ∈ units, Text.Solid unit.name.toList)
    (named : ∀ unit ∈ units, unit.WellNamed) (few : (units.flatMap SourceUnit.commands).length ≤ 10000) :
    ∃ lines image, link {} units = .ok lines ∧ Image.assemble (lines.map Line.render) = .ok image := by
  obtain ⟨lines, linked⟩ : ∃ lines, link {} units = .ok lines := by
    apply exists_link_of_unlabelled
    all_goals
      intro site member
      obtain ⟨index, command⟩ := Site.push_of_mem pushes member
    · rw [command]
      rfl
    · rw [Site.labels, command]
  have small : Line.size lines ≤ 65535 := by
    have size : Site.size (Site.ofUnits units) ≤ 6 * (Site.ofUnits units).length := by
      apply Site.size_le
      intro site member
      obtain ⟨index, command⟩ := Site.push_of_mem pushes member
      rw [Site.code, command]
      exact Nat.le_refl 6
    have start : BuildOptions.startSize {} units ≤ 46 := by
      rw [BuildOptions.startSize]
      split <;> decide
    rw [← List.length_map Site.command, Site.ofUnits, Site.map_command_ofUnitsFrom, ← Site.ofUnits] at size
    rw [link_size linked]
    omega
  have functions : ∀ name locals, .function name locals ∈ units.flatMap SourceUnit.commands →
      name ∉ Image.predefined := by
    intro name locals present
    obtain ⟨index, same⟩ := pushes _ present
    cases same
  obtain ⟨image, assembled⟩ :=
    Image.exists_assemble (link_assemblable solid named (by decide) linked small functions)
  exact ⟨lines, image, linked, assembled⟩

end Pushes

/-- More units than there is room for static variables, each of which pushes one of its own. -/
def crowdedSources : List (String × String) :=
  (List.range 241).map fun number => ("U" ++ number.repr, "push static 0")

/-- The units that the sources are read as. -/
def crowdedUnits : List SourceUnit :=
  (List.range 241).map fun number => .ofCommands ("U" ++ number.repr) [.push .static 0]

private theorem read_crowdedSources :
    crowdedSources.mapM (fun (name, source) => SourceUnit.ofSource name source) = .ok crowdedUnits := by
  have listing : Listing.ofSource "push static 0" = .ok (Listing.ofCommands [.push .static 0]) := by decide +kernel
  have each : ∀ name, SourceUnit.ofSource name "push static 0" = .ok (.ofCommands name [.push .static 0]) := by
    intro name
    rw [SourceUnit.ofSource, listing]
    rfl
  rw [crowdedSources, List.mapM_map, crowdedUnits]
  simp only [Function.comp_def, each]
  exact List.mapM_pure

private theorem commands_crowdedUnits :
    crowdedUnits.flatMap SourceUnit.commands = List.replicate 241 (.push .static 0) := by
  decide +kernel

/-- Each unit has a static variable of its own. -/
theorem statics_crowdedUnits : 240 < ((Site.ofUnits crowdedUnits).flatMap Site.statics).dedup.length := by
  let names := (List.range 241).map fun number => staticSymbol ("U" ++ number.repr) 0
  have distinct : names.Nodup := by
    apply List.nodup_range.map
    intro first second same
    exact repr_injective ((String.append_right_inj "U").mp (staticSymbol_inj.mp same).1)
  have used : names ⊆ ((Site.ofUnits crowdedUnits).flatMap Site.statics).dedup := by
    intro name member
    obtain ⟨number, bound, rfl⟩ := List.mem_map.mp member
    have added : .ofCommands ("U" ++ number.repr) [.push .static 0] ∈ crowdedUnits := List.mem_map_of_mem bound
    obtain ⟨site, here, unit, command⟩ :=
      Site.exists_mem_ofUnits added (List.mem_singleton_self (Command.push .static 0))
    rw [List.mem_dedup]
    exact List.mem_flatMap_of_mem here (by simp [Site.statics, command, unit, SourceUnit.ofCommands])
  have covered := (List.subperm_of_subset distinct used).length_le
  rwa [List.length_map, List.length_range] at covered

/-- The program links and assembles, but not all of its static variables lie below the stack. -/
theorem statics_reach_stack :
    ∃ lines image name address, (∀ source ∈ crowdedSources, Text.Solid source.1.toList) ∧
      crowdedSources.mapM (fun (name, source) => SourceUnit.ofSource name source) = .ok crowdedUnits ∧
      linkSources {} crowdedSources = .ok lines ∧ Image.assemble (lines.map Line.render) = .ok image ∧
      name ∈ (Site.ofUnits crowdedUnits).flatMap Site.statics ∧ image.addressOf name = .ok address ∧
      ¬ address < Template.stackBase := by
  have solidSources : ∀ source ∈ crowdedSources, Text.Solid source.1.toList := by
    intro source member
    obtain ⟨number, -, rfl⟩ := List.mem_map.mp member
    rw [String.toList_append]
    exact (Text.Solid.of_forall (by decide)).append (.of_digits fun _ => isDigit_of_mem_repr) (.inl (by decide))
  have wellNamed := SourceUnit.ofSources_wellNamed read_crowdedSources solidSources
  have solid := fun unit member => (wellNamed unit member).1
  have named := fun unit member => (wellNamed unit member).2
  have pushes : ∀ command ∈ crowdedUnits.flatMap SourceUnit.commands, ∃ index, command = .push .static index := by
    rw [commands_crowdedUnits]
    exact fun command member => ⟨0, List.eq_of_mem_replicate member⟩
  obtain ⟨lines, image, linked, assembled⟩ := exists_image_of_pushes pushes solid named
    (by rw [commands_crowdedUnits, List.length_replicate]; decide)
  have below := link_statics_below_iff solid named linked assembled (by rw [targets_of_pushes pushes]; simp)
  obtain ⟨name, used, above⟩ : ∃ name ∈ (Site.ofUnits crowdedUnits).flatMap Site.statics,
      ¬ ∃ address, image.addressOf name = .ok address ∧ address < Template.stackBase := by
    by_contra none
    exact Nat.not_le.mpr statics_crowdedUnits (below.mp (by simpa using none))
  obtain ⟨address, found, -⟩ := link_static_cell solid named linked assembled used
  have known : image.addressOf name = .ok address := by rw [Image.addressOf, found]
  exact ⟨lines, image, name, address, solidSources, read_crowdedSources,
    Runs.bind_eq_ok_iff.mpr ⟨_, read_crowdedSources, linked⟩, assembled, used, known,
    fun below => above ⟨address, known, below⟩⟩

end HackVM
