import HackVM.Proofs.UniqueLabels

/-! # Which label a jump meets

A jump names a label of the function around it, or of the unit outside any function. Its code refers to the
scope and the name joined by a mark, and so does the label line. If the scope has the label, that line is the
only one for the name. If it has not, the name may still be that of a line elsewhere: a scope may itself hold
the mark, and a function may have the name of a unit. Where no scope holds the mark and no function has the name
of a unit, a jump meets a label of its own scope or none.
-/

namespace HackVM

/-- The label that a command jumps to. -/
def Command.target? : Command → Option String
  | goto name | ifGoto name => some name
  | _ => none

namespace Site

/-- Two sites are inside the same function, or outside any function in the same unit. Units are told apart by
their names. -/
def SameScope (first second : Site) : Prop :=
  first.function = second.function ∧ (second.function = none → first.unit = second.unit)

instance (first second : Site) : Decidable (first.SameScope second) :=
  inferInstanceAs (Decidable (_ ∧ _))

private theorem SameScope.scope_eq {first second : Site} (same : first.SameScope second) :
    first.scope = second.scope := by
  rw [scope, scope, same.1]
  cases around : second.function with
  | none => exact same.2 around
  | some name => rfl

/-- The code of a jump refers to the label by its full name. -/
theorem target_mem_code {site : Site} {name : String} (jumps : name ∈ site.command.target?) :
    .symbol (site.labelName name) ∈ site.code := by
  obtain ⟨unit, function, number, command⟩ := site
  cases command with
  | goto own =>
    cases jumps
    simp [code, Template.goto]
  | ifGoto own =>
    cases jumps
    simp [code, Template.ifGoto]
  | arithmetic | push | pop | label | function | call | ret => contradiction

/-- A function around a site was entered there or before. -/
theorem function_of_mem_ofCommands {unit : String} {function : Option String} {number : Nat}
    {commands : List Command} {site : Site} (member : site ∈ ofCommands unit function number commands) :
    ∀ name ∈ site.function, name ∈ function ∨ ∃ locals, .function name locals ∈ commands := by
  induction commands generalizing function number with
  | nil => contradiction
  | cons command rest ih =>
    intro name around
    rcases List.mem_cons.mp member with rfl | later
    · exact .inl around
    rcases ih later name around with entered | ⟨locals, below⟩
    · cases command with
      | function own locals =>
        cases entered
        exact .inr ⟨locals, List.mem_cons_self ..⟩
      | arithmetic | push | pop | label | goto | ifGoto | call | ret => exact .inl entered
    · exact .inr ⟨locals, List.mem_cons_of_mem _ below⟩

private theorem exists_mem_ofCommands {number : Nat} {units : List SourceUnit} {site : Site}
    (member : site ∈ ofUnitsFrom number units) :
    ∃ unit ∈ units, ∃ start, site ∈ ofCommands unit.name none start unit.commands := by
  induction units generalizing number with
  | nil => contradiction
  | cons unit rest ih =>
    rcases List.mem_append.mp member with here | later
    · exact ⟨unit, List.mem_cons_self .., number, here⟩
    · obtain ⟨other, added, present⟩ := ih later
      exact ⟨other, List.mem_cons_of_mem _ added, present⟩

/-- A site stands in a unit, which has its command and starts the function around it. -/
theorem exists_unit_of_mem_ofUnits {units : List SourceUnit} {site : Site} (member : site ∈ ofUnits units) :
    ∃ unit ∈ units, site.unit = unit.name ∧ site.command ∈ unit.commands ∧
      ∀ name ∈ site.function, ∃ locals, .function name locals ∈ unit.commands := by
  obtain ⟨unit, added, start, present⟩ := exists_mem_ofCommands member
  refine ⟨unit, added, unit_of_mem_ofCommands present, ?_, ?_⟩
  · rw [← map_command_ofCommands unit.name none start unit.commands]
    exact List.mem_map_of_mem present
  · intro name around
    simpa using function_of_mem_ofCommands present name around

/-- Where labels are distinct, sites that define the same name are the same. -/
theorem eq_of_common_label {sites : List Site} (distinct : (sites.flatMap labels).Nodup) {first second : Site}
    (left : first ∈ sites) (right : second ∈ sites) {name : String} (here : name ∈ first.labels)
    (there : name ∈ second.labels) : first = second := by
  induction sites with
  | nil => contradiction
  | cons site rest ih =>
    obtain ⟨-, later, apart⟩ := List.nodup_append'.mp distinct
    rcases List.mem_cons.mp left with rfl | early <;> rcases List.mem_cons.mp right with rfl | late
    · rfl
    · exact (apart here (List.mem_flatMap_of_mem late there)).elim
    · exact (apart there (List.mem_flatMap_of_mem early here)).elim
    · exact ih later early late

end Site

/-- Full names tell scopes without the mark and the names in them apart. -/
theorem Label.inScope_inj {first second left right : String} (outer : '$' ∉ first.toList)
    (other : '$' ∉ second.toList) (same : inScope first left = inScope second right) :
    first = second ∧ left = right := by
  have texts := congrArg (fun name => Text.cut? '$' name.toList) same
  simp only [inScope, String.toList_append, List.append_assoc] at texts
  rw [show "$".toList = ['$'] from rfl, List.singleton_append, List.singleton_append, Text.cut?_append outer,
    Text.cut?_append other] at texts
  simpa [String.toList_inj] using texts

/-- A generated label holds the mark only if its owner does. -/
theorem Label.mark_not_mem_generated {owner : String} (unmarked : '$' ∉ owner.toList) (purpose : Purpose)
    (number : Nat) : '$' ∉ (generated owner purpose number).toList := by
  have digits : '$' ∉ number.repr.toList := fun member => absurd (isDigit_of_mem_repr member) (by decide)
  have word : '$' ∉ purpose.name.toList := by cases purpose <;> decide
  simp only [generated, String.toList_append, List.mem_append, not_or]
  exact ⟨⟨⟨⟨unmarked, by decide⟩, word⟩, by decide⟩, digits⟩

/-- No unit or function has a name with the mark of full names, and no function has the name of a unit. -/
structure SourceUnit.ScopesApart (units : List SourceUnit) : Prop where
  unitNames : ∀ unit ∈ units, '$' ∉ unit.name.toList
  functionNames : ∀ command ∈ units.flatMap commands, ∀ name ∈ command.entered?,
    '$' ∉ name.toList ∧ ∀ unit ∈ units, unit.name ≠ name

instance (units : List SourceUnit) : Decidable (SourceUnit.ScopesApart units) :=
  decidable_of_iff
    ((∀ unit ∈ units, '$' ∉ unit.name.toList) ∧
      ∀ command ∈ units.flatMap SourceUnit.commands, ∀ name ∈ command.entered?,
        '$' ∉ name.toList ∧ ∀ unit ∈ units, unit.name ≠ name)
    ⟨fun ⟨unitNames, functionNames⟩ => ⟨unitNames, functionNames⟩,
      fun apart => ⟨apart.unitNames, apart.functionNames⟩⟩

namespace Site

variable {units : List SourceUnit} (apart : SourceUnit.ScopesApart units)

include apart

private theorem mark_not_mem_unit {site : Site} (member : site ∈ ofUnits units) : '$' ∉ site.unit.toList := by
  obtain ⟨unit, added, same, -⟩ := exists_unit_of_mem_ofUnits member
  rw [same]
  exact apart.unitNames unit added

/-- The function around a site has a name without the mark, and no site is in a unit of that name. -/
theorem function_apart {site : Site} (member : site ∈ ofUnits units) {name : String} (around : name ∈ site.function) :
    '$' ∉ name.toList ∧ ∀ other ∈ ofUnits units, other.unit ≠ name := by
  obtain ⟨unit, added, -, -, entered⟩ := exists_unit_of_mem_ofUnits member
  obtain ⟨locals, present⟩ := entered name around
  obtain ⟨unmarked, other⟩ := apart.functionNames _ (List.mem_flatMap_of_mem added present) name rfl
  refine ⟨unmarked, fun site present => ?_⟩
  obtain ⟨unit, added, same, -⟩ := exists_unit_of_mem_ofUnits present
  rw [same]
  exact other unit added

private theorem mark_not_mem_scope {site : Site} (member : site ∈ ofUnits units) : '$' ∉ site.scope.toList := by
  rw [scope]
  cases around : site.function with
  | none => exact mark_not_mem_unit apart member
  | some name => exact (function_apart apart member around).1

/-- Sites whose scopes have the same name are in the same scope. -/
theorem sameScope_of_scope_eq {first second : Site} (left : first ∈ ofUnits units) (right : second ∈ ofUnits units)
    (same : first.scope = second.scope) : first.SameScope second := by
  rw [scope, scope] at same
  cases here : first.function <;> cases there : second.function <;> rw [here, there] at same
  case none.none => exact ⟨here.trans there.symm, fun _ => same⟩
  -- One site is in a function and the other in a unit, which do not have the same name.
  case none.some name => exact absurd same ((function_apart apart right there).2 first left)
  case some.none name => exact absurd same.symm ((function_apart apart left here).2 second right)
  case some.some name other =>
    cases (same : name = other)
    exact ⟨here.trans there.symm, by simp [there]⟩

/-- If scopes are apart, a full name is defined in its scope or nowhere. -/
theorem label_of_common_name {site own : Site} {name : String} (left : site ∈ ofUnits units)
    (right : own ∈ ofUnits units) (defined : site.labelName name ∈ own.labels) :
    own.command = .label name ∧ own.SameScope site := by
  have marked := site.mark_mem_labelName name
  obtain ⟨purpose, same⟩ | ⟨other, command, same⟩ | ⟨locals, command⟩ := label_cases defined
  · rw [same] at marked
    exact absurd marked (Label.mark_not_mem_generated (mark_not_mem_unit apart right) purpose own.number)
  · obtain ⟨scopes, rfl⟩ := Label.inScope_inj (mark_not_mem_scope apart left) (mark_not_mem_scope apart right) same
    exact ⟨command, sameScope_of_scope_eq apart right left scopes.symm⟩
  · obtain ⟨unit, added, -, present, -⟩ := exists_unit_of_mem_ofUnits right
    rw [command] at present
    exact absurd marked (apart.functionNames _ (List.mem_flatMap_of_mem added present) _ rfl).1

end Site

/-- A jump meets the label of its own scope if there is one. Where scopes are apart it never meets another. -/
theorem jump_meets_own_label {options : BuildOptions} {sources : List (String × String)} {units : List SourceUnit}
    {lines : List Line} (read : sources.mapM (fun (name, source) => SourceUnit.ofSource name source) = .ok units)
    (linked : linkSources options sources = .ok lines) {site : Site} (member : site ∈ Site.ofUnits units)
    {name : String} (jumps : name ∈ site.command.target?) :
    let target := site.labelName name
    let here (own : Site) := own ∈ Site.ofUnits units ∧ own.command = .label name ∧ own.SameScope site
    site.code <:+: lines ∧ .symbol target ∈ site.code ∧
      (∀ own, here own → (Line.labels lines).count target = 1 ∧
        ∀ other ∈ Site.ofUnits units, target ∈ other.labels → other = own) ∧
      (SourceUnit.ScopesApart units → target ∈ Line.labels lines → ∃ own, here own) := by
  intro target here
  rw [linkSources, read] at linked
  obtain ⟨distinct, start, labels, opening⟩ := link_labels linked
  refine ⟨link_code linked member, Site.target_mem_code jumps, ?_, ?_⟩
  · rintro own ⟨present, command, same⟩
    have defines : target ∈ own.labels := by
      simp [target, Site.labels, command, Site.labelName, same.scope_eq]
    have defined : target ∈ Line.labels lines := by
      rw [labels]
      exact List.mem_append_right _ (List.mem_flatMap_of_mem present defines)
    refine ⟨List.count_eq_one_of_mem distinct defined, fun other added also => ?_⟩
    rw [labels] at distinct
    exact Site.eq_of_common_label (List.nodup_append'.mp distinct).2.1 added present also defines
  · intro apart defined
    rw [labels, List.mem_append, List.mem_flatMap] at defined
    rcases defined with opens | ⟨own, present, defines⟩
    · -- The label behind the opening call has an owner without the mark.
      obtain ⟨number, generated⟩ := opening target opens
      have marked : '$' ∈ target.toList := site.mark_mem_labelName name
      rw [generated] at marked
      exact absurd marked (Label.mark_not_mem_generated (by decide) .returnPoint number)
    · exact ⟨own, present, Site.label_of_common_name apart member present defines⟩

/-- Two functions that each jump to a label of the same name. -/
def twinSources : List (String × String) :=
  [("Main", "function f 0\nlabel L\ngoto L\nfunction g 0\nlabel L\nif-goto L")]

/-- The jump in the second function meets the label there and no other. -/
theorem jump_meets_own_label_twinSources :
    let label : Site := ⟨"Main", some "g", 0, .label "L"⟩
    let jump : Site := ⟨"Main", some "g", 0, .ifGoto "L"⟩
    ∃ units lines, twinSources.mapM (fun (name, source) => SourceUnit.ofSource name source) = .ok units ∧
      linkSources {} twinSources = .ok lines ∧ jump ∈ Site.ofUnits units ∧ SourceUnit.ScopesApart units ∧
      (∃ own, own ∈ Site.ofUnits units ∧ own.command = .label "L" ∧ own.SameScope jump) ∧
      (Line.labels lines).count "g$L" = 1 ∧
      ∀ other ∈ Site.ofUnits units, "g$L" ∈ other.labels → other = label := by
  intro label jump
  obtain ⟨units, read, facts⟩ := @Runs.exists_of_any _ _
    (twinSources.mapM fun (name, source) => SourceUnit.ofSource name source)
    (fun units => jump ∈ Site.ofUnits units && label ∈ Site.ofUnits units && decide (SourceUnit.ScopesApart units))
    (by decide +kernel)
  simp only [Bool.and_eq_true, decide_eq_true_eq] at facts
  obtain ⟨⟨jumpHere, labelHere⟩, apart⟩ := facts
  obtain ⟨lines, linked, defined⟩ := @Runs.exists_of_any _ _ (linkSources {} twinSources)
    (fun lines => decide ("g$L" ∈ Line.labels lines)) (by decide +kernel)
  obtain ⟨-, -, unique, meets⟩ := jump_meets_own_label read linked jumpHere rfl
  obtain ⟨once, only⟩ := unique label ⟨labelHere, rfl, by decide⟩
  exact ⟨units, lines, read, linked, jumpHere, apart, meets apart (of_decide_eq_true defined), once, only⟩

/-- A function whose name continues that of another by the mark. The other function jumps to two labels that it
does not have. -/
def crossingSources : List (String × String) :=
  [("Main", "function f 0\ngoto g$h\nif-goto g\nfunction f$g 0\nlabel h")]

/-- Both jumps leave the function around them: the first meets a label of the other function, the second the
entry of that function. -/
theorem jumps_leave_scope :
    let first : Site := ⟨"Main", some "f", 0, .goto "g$h"⟩
    let second : Site := ⟨"Main", some "f", 0, .ifGoto "g"⟩
    let label : Site := ⟨"Main", some "f$g", 0, .label "h"⟩
    let entry : Site := ⟨"Main", some "f", 0, .function "f$g" 0⟩
    ∃ units lines, crossingSources.mapM (fun (name, source) => SourceUnit.ofSource name source) = .ok units ∧
      linkSources {} crossingSources = .ok lines ∧
      Site.ofUnits units = [⟨"Main", none, 0, .function "f" 0⟩, first, second, entry, label] ∧
      Line.labels lines = ["f", second.labelName "g", first.labelName "g$h"] ∧
      second.labelName "g" ∈ entry.labels ∧ first.labelName "g$h" ∈ label.labels ∧
      ¬ label.SameScope first := by
  intro first second label entry
  obtain ⟨units, read, sites⟩ := @Runs.exists_of_any _ _
    (crossingSources.mapM fun (name, source) => SourceUnit.ofSource name source)
    (fun units => Site.ofUnits units = [⟨"Main", none, 0, .function "f" 0⟩, first, second, entry, label])
    (by decide +kernel)
  obtain ⟨lines, linked, labels⟩ := @Runs.exists_of_any _ _ (linkSources {} crossingSources)
    (fun lines => Line.labels lines = ["f", second.labelName "g", first.labelName "g$h"]) (by decide +kernel)
  exact ⟨units, lines, read, linked, of_decide_eq_true sites, of_decide_eq_true labels, by decide, by decide,
    by decide⟩

end HackVM
