import HackVM.Machine.Run
import HackVM.Proofs.UniqueLabels

/-! # Predefined names

Every program knows the names of the pointers, of the registers and of the two devices. A label that is built
from other names holds a mark, and no predefined name does. The entry of a function is the name of the function
as it stands, and nothing keeps a function from having a predefined name: such a program links, but does not
assemble. In every program that assembles, predefined names keep their addresses.
-/

namespace HackVM

/-- Predefined names are made of letters and digits. -/
theorem Image.isAlphanum_of_mem_predefined {name : String} (known : name ∈ predefined) :
    ∀ c ∈ name.toList, c.isAlphanum = true := by
  rw [predefined, Std.TreeMap.mem_ofList, List.contains_iff_mem] at known
  revert name
  decide

/-- A name that holds a mark is not predefined. -/
theorem Image.not_mem_predefined_of_mark {name : String} {mark : Char} (held : mark ∈ name.toList)
    (other : mark.isAlphanum = false) : name ∉ predefined := by
  intro known
  rw [isAlphanum_of_mem_predefined known mark held] at other
  contradiction

private theorem Label.generated_not_predefined (owner : String) (purpose : Purpose) (number : Nat) :
    generated owner purpose number ∉ Image.predefined :=
  @Image.not_mem_predefined_of_mark _ ':' (by simp [generated]) (by decide)

/-- Of the labels that a command defines, only the entry of a function can be predefined. -/
theorem Site.function_of_predefined {site : Site} {name : String} (defined : name ∈ site.labels)
    (known : name ∈ Image.predefined) : ∃ locals, site.command = .function name locals := by
  obtain ⟨purpose, rfl⟩ | ⟨own, -, rfl⟩ | entry := label_cases defined
  · exact absurd known (Label.generated_not_predefined _ _ _)
  · exact absurd known (Image.not_mem_predefined_of_mark (site.mark_mem_labelName own) (by decide))
  · exact entry

/-- A predefined name is a label of a linked program exactly if a function has it. -/
theorem link_predefined_iff {options : BuildOptions} {units : List SourceUnit} {lines : List Line}
    (linked : link options units = .ok lines) {name : String} (known : name ∈ Image.predefined) :
    name ∈ Line.labels lines ↔ ∃ locals, .function name locals ∈ units.flatMap SourceUnit.commands := by
  obtain ⟨-, start, labels, opening⟩ := link_labels linked
  rw [labels, List.mem_append, List.mem_flatMap]
  constructor
  · rintro (opens | ⟨site, member, defined⟩)
    · obtain ⟨number, rfl⟩ := opening name opens
      exact absurd known (Label.generated_not_predefined _ _ _)
    · obtain ⟨locals, command⟩ := Site.function_of_predefined defined known
      refine ⟨locals, ?_⟩
      rw [← Site.map_command_ofUnitsFrom 0, ← command]
      exact List.mem_map_of_mem member
  · rintro ⟨locals, present⟩
    obtain ⟨unit, added, member⟩ := List.mem_flatMap.mp present
    obtain ⟨site, here, -, command⟩ := Site.exists_mem_ofUnits added member
    exact .inr ⟨site, here, by simp [Site.labels, command]⟩

theorem Line.label_mem_statements {lines : List Line} {name : String} (solid : Text.Solid name.toList)
    (defined : name ∈ labels lines) : .label name ∈ statements lines := by
  obtain ⟨line, member, label⟩ := List.mem_filterMap.mp defined
  cases line with
  | label own =>
    cases label
    exact List.mem_filterMap.mpr ⟨_, List.mem_map_of_mem member, Statement.ofLine?_label solid⟩
  | comment | operation => contradiction

theorem Image.solid_of_mem_predefined {name : String} (known : name ∈ predefined) : Text.Solid name.toList := by
  apply Text.Solid.of_forall
  intro c member
  have accepted : Listing.isNameChar c = true := by
    simp [Listing.isNameChar, isAlphanum_of_mem_predefined known c member]
  obtain ⟨low, high, other⟩ := Listing.toNat_of_isNameChar accepted
  exact ⟨Text.isBlank_eq_false_of_printable low high, other⟩

/-- No label of a program that assembles is predefined. -/
theorem Image.assemble_labels {lines : List Line} {image : Image}
    (assembled : assemble (lines.map Line.render) = .ok image) {name : String} (defined : name ∈ Line.labels lines) :
    name ∉ predefined := by
  intro known
  obtain ⟨labels, layout, first, -⟩ := ofStatements_eq_ok assembled
  -- The table of the first pass holds the predefined names from the start.
  have unbound : predefined[name]? = none := Labels.unbound_of_run (by decide) first
    (Line.label_mem_statements (solid_of_mem_predefined known) defined)
  rw [Std.TreeMap.mem_iff_isSome_getElem?, unbound] at known
  exact Bool.false_ne_true known

/-- A label has a predefined name only if a function has it. In a program that assembles, predefined names have
their fixed addresses. -/
theorem predefined_names_fixed {options : BuildOptions} {sources : List (String × String)} {units : List SourceUnit}
    {lines : List Line} (read : sources.mapM (fun (name, source) => SourceUnit.ofSource name source) = .ok units)
    (linked : linkSources options sources = .ok lines) :
    (∀ name ∈ Image.predefined, name ∈ Line.labels lines ↔
      ∃ locals, .function name locals ∈ units.flatMap SourceUnit.commands) ∧
    ∀ image, Image.assemble (lines.map Line.render) = .ok image →
      (∀ name ∈ Line.labels lines, name ∉ Image.predefined) ∧
        ∀ name address, Image.predefined[name]? = some address → image.addressOf name = .ok address := by
  rw [linkSources, read] at linked
  refine ⟨fun name known => link_predefined_iff linked known, fun image assembled => ⟨?_, ?_⟩⟩
  · exact fun name defined => Image.assemble_labels assembled defined
  · intro name address fixed
    rw [Image.addressOf, Image.assemble_predefined assembled name address fixed]

/-- A function that sets a pointer and has a label with the name of a register. -/
def pointerSources : List (String × String) :=
  [("Main", "function Main.main 0\npush constant 3000\npop pointer 0\nlabel R7\ngoto R7")]

/-- The register keeps its address, since the full name of the label is another. -/
theorem predefined_names_fixed_pointerSources :
    ∃ lines image, linkSources {} pointerSources = .ok lines ∧ Image.assemble (lines.map Line.render) = .ok image ∧
      Line.labels lines = ["Main.main", "Main.main$R7"] ∧ (∀ name ∈ Line.labels lines, name ∉ Image.predefined) ∧
      image.addressOf "THIS" = .ok 3 ∧ image.addressOf "R7" = .ok 7 := by
  obtain ⟨units, read, -⟩ := @Runs.exists_of_any _ _
    (pointerSources.mapM fun (name, source) => SourceUnit.ofSource name source) (fun _ => true) (by decide +kernel)
  obtain ⟨lines, linked, facts⟩ := @Runs.exists_of_any _ _ (linkSources {} pointerSources)
    (fun lines => Line.labels lines = ["Main.main", "Main.main$R7"] &&
      (Image.assemble (lines.map Line.render)).toOption.isSome) (by decide +kernel)
  obtain ⟨labels, assembles⟩ := Bool.and_eq_true_iff.mp facts
  obtain ⟨image, assembled, -⟩ := @Runs.exists_of_any _ _ (Image.assemble (lines.map Line.render)) (fun _ => true)
    (by simpa [Option.any_true] using assembles)
  obtain ⟨free, fixed⟩ := (predefined_names_fixed read linked).2 image assembled
  exact ⟨lines, image, linked, assembled, of_decide_eq_true labels, free, fixed "THIS" 3 (by decide +kernel),
    fixed "R7" 7 (by decide +kernel)⟩

/-- A function with the name of the stack pointer. -/
def shadowingSources : List (String × String) := [("Main", "function SP 0")]

/-- The function links to a label line for the stack pointer, which the assembler does not take. -/
theorem stack_pointer_redefined :
    ∃ lines, linkSources {} shadowingSources = .ok lines ∧ "SP" ∈ Line.labels lines ∧ "SP" ∈ Image.predefined ∧
      ∀ image, Image.assemble (lines.map Line.render) ≠ .ok image := by
  obtain ⟨lines, linked, facts⟩ := @Runs.exists_of_any _ _ (linkSources {} shadowingSources)
    (fun lines => "SP" ∈ Line.labels lines && (Image.assemble (lines.map Line.render)).toOption.isNone)
    (by decide +kernel)
  obtain ⟨defined, rejected⟩ := Bool.and_eq_true_iff.mp facts
  refine ⟨lines, linked, of_decide_eq_true defined, by decide +kernel, fun image assembled => ?_⟩
  rw [assembled] at rejected
  exact Bool.false_ne_true rejected

end HackVM
