import Mathlib.Data.List.Perm.Subperm
import HackVM.Proofs.Linking

/-! # The labels of a finished program

Whatever the names of units, functions and labels are, and whichever units fail, no label of a finished
program is defined twice and none is the name of a static variable. The return label behind the opening
call is chosen last: it is free, because there are more attempts to find it than names in use, and it has the
least number that is, so it depends only on the names in use and not on how they came about. There is one label for
each function, label and call, two for each comparison, and one for the opening call.
-/

namespace HackVM

namespace Generator

/-- The search for a return label fails only if it meets taken names all the way. -/
theorem findReturnNumber_cases (generator : Generator) (attempts number : Nat) :
    ¬ generator.isTaken (Label.generated bootstrapOwner .returnPoint
        (generator.findReturnNumber attempts number)) = true ∨
      ∀ offset < attempts,
        generator.isTaken (Label.generated bootstrapOwner .returnPoint (number + offset)) = true := by
  induction attempts generalizing number with
  | zero => exact .inr (by simp)
  | succ attempts ih =>
    rw [findReturnNumber]
    split
    · rename_i taken
      refine (ih (number + 1)).imp_right fun later offset bound => ?_
      cases offset with
      | zero => exact taken
      | succ offset =>
        have next := later offset (by omega)
        rwa [Nat.add_right_comm] at next
    · rename_i free
      exact .inl free

/-- The return label behind the opening call is neither a label nor a static variable yet. -/
theorem returnNumber_free (generator : Generator) :
    ¬ generator.isTaken (Label.generated bootstrapOwner .returnPoint generator.returnNumber) = true := by
  rcases generator.findReturnNumber_cases (generator.statics.count + generator.defined.size + 1)
      generator.counter.next with free | taken
  · exact free
  -- Otherwise the candidates are distinct names in the two tables, and more than these hold.
  let candidates := (List.range (generator.statics.count + generator.defined.size + 1)).map fun offset =>
    Label.generated bootstrapOwner .returnPoint (generator.counter.next + offset)
  have distinct : candidates.Nodup := by
    apply List.nodup_range.map
    intro first second same
    exact Nat.add_left_cancel (Label.generated_injective same)
  have covered : candidates ⊆ generator.statics.symbols.toList ++ generator.defined.toList := by
    intro name member
    obtain ⟨offset, bound, rfl⟩ := List.mem_map.mp member
    have hit := taken offset (List.mem_range.mp bound)
    rw [isTaken, Bool.or_eq_true] at hit
    rw [List.mem_append, Std.TreeSet.mem_toList, Std.TreeSet.mem_toList]
    exact hit
  have few := (List.subperm_of_subset distinct covered).length_le
  simp only [candidates, List.length_map, List.length_range, List.length_append, Std.TreeSet.length_toList] at few
  rw [StaticTable.count] at few
  omega

/-- The search for a return label passes over taken names only. -/
theorem findReturnNumber_least (generator : Generator) (attempts start : Nat) :
    start ≤ generator.findReturnNumber attempts start ∧
      ∀ number, start ≤ number → number < generator.findReturnNumber attempts start →
        generator.isTaken (Label.generated bootstrapOwner .returnPoint number) = true := by
  induction attempts generalizing start with
  | zero =>
    rw [findReturnNumber]
    exact ⟨Nat.le_refl start, fun number reached before => by omega⟩
  | succ attempts ih =>
    rw [findReturnNumber]
    split
    · rename_i taken
      obtain ⟨above, passed⟩ := ih (start + 1)
      refine ⟨by omega, fun number reached before => ?_⟩
      rcases Nat.eq_or_lt_of_le reached with rfl | later
      · exact taken
      · exact passed number later before
    · exact ⟨Nat.le_refl start, fun number reached before => by omega⟩

/-- The return label behind the opening call has the least free number, from the counter on. -/
theorem returnNumber_least (generator : Generator) :
    generator.counter.next ≤ generator.returnNumber ∧
      ∀ number, generator.counter.next ≤ number → number < generator.returnNumber →
        generator.isTaken (Label.generated bootstrapOwner .returnPoint number) = true :=
  generator.findReturnNumber_least ..

/-- The number depends only on the counter and on the names that are taken. -/
theorem returnNumber_congr {first second : Generator} (counter : first.counter.next = second.counter.next)
    (taken : ∀ name, first.isTaken name = second.isTaken name) : first.returnNumber = second.returnNumber := by
  have notBelow : ∀ {first second : Generator}, first.counter.next = second.counter.next →
      (∀ name, first.isTaken name = second.isTaken name) → second.returnNumber ≤ first.returnNumber := by
    intro first second counter taken
    by_contra below
    have met := second.returnNumber_least.2 first.returnNumber (counter ▸ first.returnNumber_least.1) (by omega)
    rw [← taken] at met
    exact first.returnNumber_free met
  exact Nat.le_antisymm (notBelow counter.symm fun name => (taken name).symm) (notBelow counter taken)

/-- The opening call defines its return label and nothing else. -/
theorem labels_bootstrap (generator : Generator) (entry : String) :
    Line.labels (generator.bootstrap entry).1 =
      [Label.generated bootstrapOwner .returnPoint generator.returnNumber] := by
  rw [bootstrap]
  cases generator.annotate <;> rfl

end Generator

namespace Draft

/-- The name of the return label behind the opening call. -/
def returnPoint (draft : Draft) : String :=
  Label.generated Generator.bootstrapOwner .returnPoint draft.generator.returnNumber

section MadeOf

variable {draft other : Draft} {units : List SourceUnit} (made : draft.MadeOf units)

include made

/-- The names that are taken are those of the units. -/
theorem MadeOf.isTaken_iff (name : String) :
    draft.generator.isTaken name = true ↔
      name ∈ (Site.ofUnits units).flatMap Site.statics ∨ name ∈ (Site.ofUnits units).flatMap Site.labels := by
  rw [Generator.isTaken, Bool.or_eq_true, made.records.uses, made.records.defines]

/-- Two drafts of the same units return from the opening call to the same label. -/
theorem MadeOf.returnPoint_eq (madeToo : other.MadeOf units) : draft.returnPoint = other.returnPoint := by
  rw [returnPoint, returnPoint, Generator.returnNumber_congr]
  · rw [made.number, madeToo.number]
  · intro name
    rw [Bool.eq_iff_iff, made.isTaken_iff, madeToo.isTaken_iff]

end MadeOf

theorem labels_start (draft : Draft) :
    Line.labels draft.start =
      if draft.options.bootstrap.wanted draft.entryDefined then [draft.returnPoint] else [] := by
  rw [start]
  split
  · exact draft.generator.labels_bootstrap _
  · rfl

end Draft

theorem Site.labels_flatMap_block (annotate : Bool) (sites : List Site) :
    Line.labels (sites.flatMap (block annotate)) = sites.flatMap Site.labels := by
  induction sites with
  | nil => rfl
  | cons site rest ih => rw [List.flatMap_cons, Line.labels_append, labels_block, ih, List.flatMap_cons]

/-- The labels of a finished program are distinct, and none is a static variable of its units. -/
theorem Draft.MadeOf.labels_distinct {draft : Draft} {units : List SourceUnit} (made : draft.MadeOf units) :
    (Line.labels draft.finish.1).Nodup ∧
      ∀ name ∈ Line.labels draft.finish.1, name ∉ (Site.ofUnits units).flatMap Site.statics := by
  have free := draft.generator.returnNumber_free
  rw [made.isTaken_iff, not_or] at free
  rw [finish_lines, Line.labels_append, labels_start, made.code, Site.labels_flatMap_block]
  split
  · constructor
    · exact List.nodup_cons.mpr ⟨free.2, made.records.distinct⟩
    · rw [List.forall_mem_append]
      refine ⟨?_, made.records.apart⟩
      rintro name here
      rw [List.mem_singleton.mp here]
      exact free.1
  · exact ⟨made.records.distinct, made.records.apart⟩

/-- The labels of a linked program are distinct. They are those of its sites, after that of the opening call. -/
theorem link_labels {options : BuildOptions} {units : List SourceUnit} {lines : List Line}
    (linked : link options units = .ok lines) :
    (Line.labels lines).Nodup ∧ ∃ start,
      Line.labels lines = start ++ (Site.ofUnits units).flatMap Site.labels ∧
      ∀ name ∈ start, ∃ number, name = Label.generated Generator.bootstrapOwner .returnPoint number := by
  obtain ⟨draft, rfl, made, rfl⟩ := link_eq_ok linked
  refine ⟨?_, Line.labels draft.start, ?_, ?_⟩
  · rw [← draft.finish_lines]
    exact made.labels_distinct.1
  · rw [Line.labels_append, made.code, Site.labels_flatMap_block]
  · rw [Draft.labels_start]
    split
    · simp [Draft.returnPoint]
    · simp

/-- Whether a line of text starts with an opening parenthesis. -/
def Text.opensLabel (line : String) : Bool := line.toList.head? == some '('

/-- Only the text of a label starts with an opening parenthesis. -/
theorem Line.opensLabel_render (line : Line) : Text.opensLabel line.render = line.label?.isSome := by
  cases line with
  | comment text => simp [Text.opensLabel, render, label?]
  | label name => simp [Text.opensLabel, render, label?]
  | operation code =>
    cases code with
    | number value => simp [Text.opensLabel, render, Operation.render, label?]
    | symbol name => simp [Text.opensLabel, render, Operation.render, label?]
    | compute dest comp jump =>
      obtain ⟨-, chars⟩ := Operation.render_compute_chars dest comp jump
      rw [label?, Option.isSome_none, Text.opensLabel, beq_eq_false_iff_ne]
      intro head
      exact absurd (chars '(' (List.mem_of_head? head)) (by decide)

/-- The lines of text that start with an opening parenthesis are those of the labels, in order. -/
theorem Line.filter_opensLabel_render (lines : List Line) :
    (lines.map render).filter Text.opensLabel = (labels lines).map fun name => (label name).render := by
  induction lines with
  | nil => rfl
  | cons line rest ih =>
    rw [List.map_cons, List.filter_cons, opensLabel_render, ih]
    cases line <;> rfl

private theorem Line.render_label_injective : Function.Injective fun name => (label name).render := by
  intro first second same
  simpa [render, ← String.toList_inj] using same

namespace Command

/-- Whether a command starts a function. -/
def isFunction : Command → Bool
  | function _ _ => true
  | _ => false

/-- Whether a command is a label. -/
def isLabel : Command → Bool
  | label _ => true
  | _ => false

/-- Whether a command compares. -/
def isComparison : Command → Bool
  | arithmetic .eq | arithmetic .gt | arithmetic .lt => true
  | _ => false

/-- Whether a command is a call. -/
def isCall : Command → Bool
  | call _ _ => true
  | _ => false

end Command

private theorem Site.length_labels (site : Site) :
    site.labels.length = (if site.command.isFunction then 1 else 0) + (if site.command.isLabel then 1 else 0) +
      2 * (if site.command.isComparison then 1 else 0) + (if site.command.isCall then 1 else 0) := by
  obtain ⟨unit, function, number, command⟩ := site
  cases command with
  | arithmetic operator => cases operator <;> rfl
  | push | pop | label | goto | ifGoto | function | call | ret => rfl

private theorem Site.length_flatMap_labels (sites : List Site) :
    let commands := sites.map Site.command
    (sites.flatMap Site.labels).length = commands.countP Command.isFunction + commands.countP Command.isLabel +
      2 * commands.countP Command.isComparison + commands.countP Command.isCall := by
  induction sites with
  | nil => rfl
  | cons site rest ih =>
    simp only [List.flatMap_cons, List.length_append, length_labels, ih, List.map_cons, List.countP_cons]
    omega

/-- Every command of a program has a site in its unit. -/
theorem Site.exists_mem_ofUnits {units : List SourceUnit} {unit : SourceUnit} (added : unit ∈ units)
    {command : Command} (member : command ∈ unit.commands) :
    ∃ site ∈ ofUnits units, site.unit = unit.name ∧ site.command = command := by
  obtain ⟨before, after, rfl⟩ := List.append_of_mem added
  have inUnit : ∀ number, ∃ site ∈ ofCommands unit.name none number unit.commands,
      site.unit = unit.name ∧ site.command = command := by
    intro number
    rw [← map_command_ofCommands unit.name none number unit.commands] at member
    obtain ⟨site, present, rfl⟩ := List.mem_map.mp member
    exact ⟨site, present, unit_of_mem_ofCommands present, rfl⟩
  obtain ⟨site, present, facts⟩ := inUnit (0 + numbered (ofUnitsFrom 0 before))
  refine ⟨site, ?_, facts⟩
  rw [ofUnits, ofUnitsFrom_append, ofUnitsFrom]
  exact List.mem_append_right _ (List.mem_append_left _ present)

/-- However many units fail, the labels of the finished program are distinct, apart from its static variables, and
as many as its commands need. -/
theorem labels_unique (options : BuildOptions) (units : List SourceUnit) :
    let session := (Draft.empty options).appendEach units
    let labels := (session.1.finish.1.map Line.render).filter Text.opensLabel
    let commands := session.2.flatMap SourceUnit.commands
    labels.Nodup ∧
      (∀ unit ∈ session.2, ∀ index,
        .push .static index ∈ unit.commands ∨ .pop .static index ∈ unit.commands →
          "(" ++ staticSymbol unit.name index ++ ")" ∉ labels) ∧
      labels.length = commands.countP Command.isFunction + commands.countP Command.isLabel +
        2 * commands.countP Command.isComparison + commands.countP Command.isCall +
        (if options.callsEntry session.2 then 1 else 0) := by
  intro session labels commands
  obtain ⟨-, added⟩ := (Draft.empty options).appendEach_adds units
  obtain ⟨same, made⟩ := Draft.foldlM_add_madeOf added
  obtain ⟨distinct, apart⟩ := made.labels_distinct
  have lines : labels = _ := Line.filter_opensLabel_render session.1.finish.1
  refine ⟨?_, ?_, ?_⟩
  · rw [lines]
    exact distinct.map Line.render_label_injective
  · intro unit added index used present
    rw [lines, List.mem_map] at present
    obtain ⟨name, defined, text⟩ := present
    cases Line.render_label_injective (text : _ = (Line.label (staticSymbol unit.name index)).render)
    apply apart _ defined
    apply List.mem_flatMap.mpr
    rcases used with pushed | popped
    · obtain ⟨site, present, here, command⟩ := Site.exists_mem_ofUnits added pushed
      exact ⟨site, present, by simp [Site.statics, here, command]⟩
    · obtain ⟨site, present, here, command⟩ := Site.exists_mem_ofUnits added popped
      exact ⟨site, present, by simp [Site.statics, here, command]⟩
  · rw [lines, List.length_map, Draft.finish_lines, Line.labels_append, List.length_append, Draft.labels_start,
      made.code, Site.labels_flatMap_block, Site.length_flatMap_labels, Site.ofUnits, Site.map_command_ofUnitsFrom,
      made.entryDefined, Nat.add_comm, BuildOptions.callsEntry, same]
    exact congrArg _ (apply_ite List.length _ [_] [])

end HackVM
