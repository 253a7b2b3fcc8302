import HackVM.Proofs.PredefinedNames
import HackVM.Proofs.Variables

/-! # Static variables are private cells

The name of a static variable is its unit, a dot and its index. Whatever dots and digits the unit has in its own
name, the last dot tells the two apart. No predefined name has a dot, and no label of a program is the name of a
static variable in it, so the assembler takes each static variable for a variable and gives it a cell of its own
behind the registers. All commands that use the variable, in whichever unit of that name, load this cell.
-/

namespace HackVM

/-- The name of a static variable tells its unit and its index. -/
theorem staticSymbol_inj {first second : String} {left right : Word} :
    staticSymbol first left = staticSymbol second right ↔ first = second ∧ left = right := by
  have noDot : ∀ index : Word, '.' ∉ index.decimal.toList.reverse := by
    intro index member
    exact absurd (isDigit_of_mem_repr (List.mem_reverse.mp member)) (by decide)
  constructor
  · intro same
    -- Read backwards, the name is cut at its first dot.
    have texts := congrArg (fun name => Text.cut? '.' name.toList.reverse) same
    simp only [staticSymbol, String.toList_append, List.reverse_append] at texts
    rw [show ".".toList.reverse = ['.'] from rfl, List.singleton_append, List.singleton_append,
      Text.cut?_append (noDot left), Text.cut?_append (noDot right)] at texts
    simp only [Option.some.injEq, Prod.mk.injEq, List.reverse_inj, String.toList_inj] at texts
    exact ⟨texts.2, BitVec.eq_of_toNat_eq (repr_injective texts.1)⟩
  · rintro ⟨rfl, rfl⟩
    rfl

theorem staticSymbol_not_predefined (unit : String) (index : Word) : staticSymbol unit index ∉ Image.predefined :=
  @Image.not_mem_predefined_of_mark _ '.' (by simp [staticSymbol]) (by decide)

/-- The index of the static variable that a command uses, and the place in the command's code of the instruction
that loads the cell. -/
def Command.staticUse? : Command → Option (Word × Nat)
  | push .static index => some (index, 0)
  | pop .static index => some (index, 3)
  | _ => none

namespace Site

section Use

variable {site : Site} {index : Word} {offset : Nat} (used : (index, offset) ∈ site.command.staticUse?)

include used

private theorem mem_statics_of_use : staticSymbol site.unit index ∈ site.statics := by
  obtain ⟨unit, function, number, command⟩ := site
  cases command with
  | push segment own | pop segment own =>
    cases segment <;> cases used
    exact List.mem_singleton_self _
  | arithmetic | label | goto | ifGoto | function | call | ret => contradiction

/-- The code of a command that uses a static variable refers to it by name. -/
theorem code_of_use :
    ∃ before after, site.code = before ++ .symbol (staticSymbol site.unit index) :: after ∧
      Line.size before = offset := by
  obtain ⟨unit, function, number, command⟩ := site
  cases command with
  | push segment own =>
    cases segment <;> cases used
    exact ⟨[], _, rfl, rfl⟩
  | pop segment own =>
    cases segment <;> cases used
    exact ⟨Template.popD, _, rfl, rfl⟩
  | arithmetic | label | goto | ifGoto | function | call | ret => contradiction

end Use

/-- A static variable that a command uses is named by the code of the command. -/
theorem exists_use_of_mem_statics {site : Site} {name : String} (member : name ∈ site.statics) :
    ∃ index offset, (index, offset) ∈ site.command.staticUse? ∧ name = staticSymbol site.unit index := by
  obtain ⟨unit, function, number, command⟩ := site
  cases command with
  | push segment own | pop segment own =>
    cases segment
    case static => exact ⟨own, _, rfl, List.mem_singleton.mp member⟩
    all_goals contradiction
  | arithmetic operator => cases operator <;> contradiction
  | label | goto | ifGoto | function | call | ret => contradiction

end Site

/-- No label of a linked program is the name of a static variable in it. -/
theorem link_statics_apart {options : BuildOptions} {units : List SourceUnit} {lines : List Line}
    (linked : link options units = .ok lines) :
    ∀ name ∈ Line.labels lines, name ∉ (Site.ofUnits units).flatMap Site.statics := by
  obtain ⟨draft, rfl, made, rfl⟩ := link_eq_ok linked
  rw [← draft.finish_lines]
  exact made.labels_distinct.2

section Linked

variable {options : BuildOptions} {units : List SourceUnit} {lines : List Line}
  (solid : ∀ unit ∈ units, Text.Solid unit.name.toList) (named : ∀ unit ∈ units, unit.WellNamed)
  (linked : link options units = .ok lines)

include solid named linked

/-- The assembler takes static variables for variables. -/
theorem link_static_variable {name : String} (used : name ∈ (Site.ofUnits units).flatMap Site.statics) :
    name ∈ Statement.variableNames (Line.statements lines) := by
  obtain ⟨site, member, static⟩ := List.mem_flatMap.mp used
  obtain ⟨index, offset, use, rfl⟩ := Site.exists_use_of_mem_statics static
  have fits := link_fits solid named linked
  have symbol : IsSymbol (staticSymbol site.unit index) :=
    isSymbol_staticSymbol (Site.ofUnits_wellNamed solid named site member).unit index
  obtain ⟨before, after, code, -⟩ := Site.code_of_use use
  have refers : .symbol (staticSymbol site.unit index) ∈ lines :=
    (link_code linked member).subset (by simp [code])
  refine Statement.mem_unknowns_iff.mpr ⟨Line.mem_references refers symbol, ?_⟩
  rw [Bool.or_eq_false_iff]
  constructor
  · rw [← Bool.not_eq_true]
    exact staticSymbol_not_predefined site.unit index
  · rw [← Bool.not_eq_true, List.contains_iff_mem]
    intro label
    exact link_statics_apart linked _ (Line.mem_labels_of_statement fits label) used

variable {image : Image} (assembled : Image.assemble (lines.map Line.render) = .ok image)

include assembled

/-- The cell of a static variable is told by the variables before it. -/
theorem link_static_cell {name : String} (used : name ∈ (Site.ofUnits units).flatMap Site.statics) :
    ∃ address, image.symbols[name]? = some address ∧
      address.toNat = Image.firstVariable + (Statement.variableNames (Line.statements lines)).idxOf name :=
  Image.ofStatements_variable assembled (link_static_variable solid named linked used)

/-- Static variables have the same cell iff they have the same name. -/
theorem link_static_cell_eq_iff {first second : String}
    (left : first ∈ (Site.ofUnits units).flatMap Site.statics)
    (right : second ∈ (Site.ofUnits units).flatMap Site.statics) :
    image.addressOf first = image.addressOf second ↔ first = second := by
  obtain ⟨here, found, cell⟩ := link_static_cell solid named linked assembled left
  obtain ⟨there, other, otherCell⟩ := link_static_cell solid named linked assembled right
  rw [Image.addressOf, Image.addressOf, found, other, Except.ok.injEq, ← BitVec.toNat_inj, cell, otherCell,
    Nat.add_left_cancel_iff, List.idxOf_inj (link_static_variable solid named linked left)]

end Linked

/-- Every use of a static variable loads a cell behind the registers, and two uses load one cell iff they use one
variable. -/
theorem statics_are_private_cells {options : BuildOptions} {sources : List (String × String)}
    {units : List SourceUnit} {lines : List Line} {image : Image}
    (solid : ∀ source ∈ sources, Text.Solid source.1.toList)
    (read : sources.mapM (fun (name, source) => SourceUnit.ofSource name source) = .ok units)
    (linked : linkSources options sources = .ok lines)
    (assembled : Image.assemble (lines.map Line.render) = .ok image) :
    (∀ before site after index offset, Site.ofUnits units = before ++ site :: after →
      (index, offset) ∈ site.command.staticUse? →
        let name := staticSymbol site.unit index
        name ∉ Line.labels lines ∧ name ∉ Image.predefined ∧
          ∃ address, image.addressOf name = .ok address ∧ 16 ≤ address.toNat ∧
            image.instructions[options.startSize units + Site.size before + offset]? = some (.load address)) ∧
      ∀ first ∈ Site.ofUnits units, ∀ second ∈ Site.ofUnits units,
        ∀ left ∈ first.command.staticUse?, ∀ right ∈ second.command.staticUse?,
          (image.addressOf (staticSymbol first.unit left.1) = image.addressOf (staticSymbol second.unit right.1) ↔
            first.unit = second.unit ∧ left.1 = right.1) := by
  have wellNamed := SourceUnit.ofSources_wellNamed read solid
  have solid := fun unit member => (wellNamed unit member).1
  have named := fun unit member => (wellNamed unit member).2
  rw [linkSources, read] at linked
  constructor
  · intro before site after index offset whole used
    have member : site ∈ Site.ofUnits units := by simp [whole]
    have static := List.mem_flatMap_of_mem member (Site.mem_statics_of_use used)
    obtain ⟨address, found, cell⟩ := link_static_cell solid named linked assembled static
    refine ⟨fun label => link_statics_apart linked _ label static, staticSymbol_not_predefined _ _, address, ?_, ?_, ?_⟩
    · rw [Image.addressOf, found]
    · rw [cell]
      exact Nat.le_add_right 16 _
    · obtain ⟨start, rest, code, size⟩ := Site.code_of_use used
      have placed := (link_holds solid named linked assembled).code before site after whole
      rw [code, Image.codeAt_append, size] at placed
      obtain ⟨instruction, resolved, emitted⟩ := placed.2.1
      rw [Operation.resolve?, found] at resolved
      cases resolved
      exact emitted
  · intro first here second there left use right other
    have inFirst := List.mem_flatMap_of_mem here (Site.mem_statics_of_use use)
    have inSecond := List.mem_flatMap_of_mem there (Site.mem_statics_of_use other)
    rw [link_static_cell_eq_iff solid named linked assembled inFirst inSecond, staticSymbol_inj]

/-- Units whose names and indices are easily mixed up, one of them in two parts. -/
def dottedSources : List (String × String) :=
  [("A", "push static 0\npop static 1"), ("A.0", "push static 1\npop static 0"), ("A", "push static 0")]

/-- The first part of the unit and the second load the same cell. That of the other unit is another. -/
theorem statics_are_private_cells_dottedSources :
    ∃ lines image address, linkSources {} dottedSources = .ok lines ∧
      Image.assemble (lines.map Line.render) = .ok image ∧ image.addressOf "A.0" = .ok address ∧
      16 ≤ address.toNat ∧ image.instructions[22]? = some (.load address) ∧
      image.addressOf "A.0" ≠ image.addressOf "A.0.0" := by
  have solid : ∀ source ∈ dottedSources, Text.Solid source.1.toList := by
    simp only [dottedSources, List.forall_mem_cons]
    exact ⟨IsIdentifier.solid (by decide), IsIdentifier.solid (by decide), IsIdentifier.solid (by decide), by simp⟩
  let first : Site := ⟨"A", none, 0, .push .static 0⟩
  let second : Site := ⟨"A.0", none, 0, .pop .static 0⟩
  let early : List Site :=
    [first, ⟨"A", none, 0, .pop .static 1⟩, ⟨"A.0", none, 0, .push .static 1⟩, second]
  obtain ⟨units, read, facts⟩ := @Runs.exists_of_any _ _
    (dottedSources.mapM fun (name, source) => SourceUnit.ofSource name source)
    (fun units => Site.ofUnits units = early ++ [first] && BuildOptions.startSize {} units = 0) (by decide +kernel)
  simp only [Bool.and_eq_true, decide_eq_true_eq] at facts
  obtain ⟨sites, start⟩ := facts
  obtain ⟨lines, linked, assembles⟩ := @Runs.exists_of_any _ _ (linkSources {} dottedSources)
    (fun lines => (Image.assemble (lines.map Line.render)).toOption.isSome) (by decide +kernel)
  obtain ⟨image, assembled, -⟩ := @Runs.exists_of_any _ _ (Image.assemble (lines.map Line.render)) (fun _ => true)
    (by simpa [Option.any_true] using assembles)
  obtain ⟨cells, apart⟩ := statics_are_private_cells solid read linked assembled
  obtain ⟨-, -, address, found, behind, loaded⟩ := cells early first [] 0 0 sites rfl
  rw [start] at loaded
  refine ⟨lines, image, address, linked, assembled, found, behind, loaded, fun same => ?_⟩
  have mixed := (apart first (by simp [sites]) second (by simp [sites, early]) (0, 0) rfl (0, 3) rfl).mp same
  exact absurd mixed.1 (by decide)

end HackVM
