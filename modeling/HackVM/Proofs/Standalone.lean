import Mathlib.Data.List.Induction
import HackVM.Proofs.Offences

/-! # Units lowered alone

The tables of a generator decide whether a command may have code, never which. With fewer names in them no
more is refused. So a unit that has code behind other units has the same code in a generator of its own, if
the labels are numbered as they are there. A linked program is its start and the code of its units, each as
if it stood alone.
-/

namespace HackVM

/-- A command that offends after some commands offends after more of them. -/
theorem Site.Offends.mono {few many : List Site} (within : few ⊆ many) {site : Site} (offends : site.Offends few) :
    site.Offends many := by
  have more : ∀ (names : Site → List String) name, name ∈ few.flatMap names → name ∈ many.flatMap names := by
    intro names name member
    obtain ⟨earlier, present, named⟩ := List.mem_flatMap.mp member
    exact List.mem_flatMap.mpr ⟨earlier, within present, named⟩
  rcases offends with wrong | ⟨name, defined, label | static⟩ | ⟨name, used, label⟩
  · exact .inl wrong
  · exact .inr (.inl ⟨name, defined, .inl (more _ name label)⟩)
  · exact .inr (.inl ⟨name, defined, .inr (more _ name static)⟩)
  · exact .inr (.inr ⟨name, used, more _ name label⟩)

private theorem Site.firstError?_mono {few many : List Site} (within : few ⊆ many) {placed : List (Site × Nat)}
    (clear : firstError? many placed = none) : firstError? few placed = none := by
  rw [firstError?_eq_none_iff] at clear ⊢
  intro before site line after split offends
  refine clear before site line after split (offends.mono ?_)
  exact List.append_subset.mpr ⟨List.subset_append_of_subset_left _ within, List.subset_append_right ..⟩

/-- A generator that has lowered nothing yet, for a unit whose labels are numbered from a number on. -/
def Generator.standalone (annotate : Bool) (number : Nat) (unit : String) : Generator :=
  { unit, counter := ⟨number⟩, annotate }

private theorem Generator.standalone_records (annotate : Bool) (number : Nat) (unit : String) :
    (standalone annotate number unit).Records [] [] := by
  refine ⟨?_, ?_, ?_, ?_⟩
  all_goals simp [standalone, StaticTable.contains]

namespace Draft

/-- A listing that has code outside functions has the same code in a generator without names. -/
theorem mapM_numberedCode_standalone {listing : Listing} {generator next : Generator} {earlier : List Site}
    {blocks : List (List Line)}
    (records : generator.Records (earlier.flatMap Site.labels) (earlier.flatMap Site.statics))
    (outside : generator.function = none) (lowered : listing.mapM numberedCode generator = .ok blocks next) :
    ∃ final, listing.mapM numberedCode
      (.standalone generator.annotate generator.counter.next generator.unit) = .ok blocks final := by
  let alone := Generator.standalone generator.annotate generator.counter.next generator.unit
  have clear := mapM_numberedCode_firstError listing records
  have fresh := @mapM_numberedCode_firstError listing alone [] (Generator.standalone_records ..)
  rw [lowered, outside] at clear
  cases ran : listing.mapM numberedCode alone with
  | error failure stopped =>
    rw [ran] at fresh
    exact absurd (fresh.symm.trans (Site.firstError?_mono (List.nil_subset _) clear)) (by simp)
  | ok others final =>
    have same : others = blocks := by
      rw [(mapM_numberedCode_lowers ran).blocks, (mapM_numberedCode_lowers lowered).blocks, outside]
      rfl
    exact ⟨final, by rw [same]⟩

/-- Lowering a listing that has code is lowering its commands. -/
theorem commands_of_mapM_numberedCode {listing : Listing} {generator next : Generator} {blocks : List (List Line)}
    (lowered : listing.mapM numberedCode generator = .ok blocks next) :
    Lowering.commands (listing.map NumberedCommand.command) generator = .ok blocks.flatten next := by
  refine Runs.state_bind_eq_ok_iff.mpr ⟨blocks, next, ?_, rfl⟩
  induction listing generalizing generator blocks with
  | nil =>
    cases lowered
    rfl
  | cons numbered rest ih =>
    obtain ⟨first, middle, others, ran, later, rfl⟩ := Runs.mapM_cons_eq_ok_iff.mp lowered
    exact Runs.mapM_cons_eq_ok_iff.mpr ⟨first, middle, others, numberedCode_eq_ok_iff.mp ran, ih later, rfl⟩

/-- The draft of units, all of which have code. -/
def ofUnits (options : BuildOptions) (units : List SourceUnit) : Except UnitError Draft :=
  units.foldlM (fun draft unit => return (← draft.add unit).1) (empty options)

private theorem ofUnits_concat_eq_ok_iff {options : BuildOptions} {units : List SourceUnit} {unit : SourceUnit}
    {next : Draft} :
    ofUnits options (units ++ [unit]) = .ok next ↔
      ∃ draft event, ofUnits options units = .ok draft ∧ draft.add unit = .ok (next, event) := by
  rw [ofUnits, Runs.foldlM_append_eq_ok_iff]
  constructor
  · rintro ⟨draft, built, added⟩
    obtain ⟨_, step, rest⟩ := Runs.foldlM_cons_eq_ok_iff.mp added
    cases rest
    obtain ⟨⟨_, event⟩, ran, returned⟩ := Runs.bind_eq_ok_iff.mp step
    cases returned
    exact ⟨draft, event, built, ran⟩
  · rintro ⟨draft, event, built, added⟩
    refine ⟨draft, built, Runs.foldlM_cons_eq_ok_iff.mpr ⟨next, ?_, rfl⟩⟩
    exact Runs.bind_eq_ok_iff.mpr ⟨(next, event), added, rfl⟩

end Draft

/-- The lines that a unit adds to a program behind earlier units. -/
def SourceUnit.Adds (options : BuildOptions) (earlier : List SourceUnit) (unit : SourceUnit) (slice : List Line) :
    Prop :=
  ∃ draft next event, Draft.ofUnits options earlier = .ok draft ∧ draft.add unit = .ok (next, event) ∧
    next.code = draft.code ++ slice

/-- What a unit adds behind earlier units is its code alone, numbered from the count of their numbers on. -/
theorem SourceUnit.Adds.standalone {options : BuildOptions} {earlier : List SourceUnit} {unit : SourceUnit}
    {slice : List Line} (adds : unit.Adds options earlier slice) :
    ∃ final, Lowering.commands unit.commands
      (.standalone options.annotate ((earlier.flatMap SourceUnit.commands).countP Command.takesNumber) unit.name) =
        .ok slice final := by
  obtain ⟨draft, next, event, built, added, code⟩ := adds
  obtain ⟨same, made⟩ := Draft.foldlM_add_madeOf built
  have number : draft.generator.counter.next = (earlier.flatMap SourceUnit.commands).countP Command.takesNumber := by
    rw [made.number, Site.numbered, ← Site.map_command_ofUnitsFrom 0 earlier, List.countP_map]
    rfl
  rw [Draft.add_eq_ok_iff, Draft.append_eq] at added
  split at added
  · contradiction
  · rename_i blocks generator lowered
    cases added
    obtain ⟨final, alone⟩ := Draft.mapM_numberedCode_standalone (made.enterUnit_records unit.name) rfl lowered
    simp only [Generator.enterUnit, made.annotate, same, number] at alone
    rw [← List.append_cancel_left code]
    exact ⟨final, Draft.commands_of_mapM_numberedCode alone⟩

/-- The code of a draft is what its units added, one after the other. -/
theorem Draft.ofUnits_slices {options : BuildOptions} {units : List SourceUnit} {draft : Draft}
    (built : ofUnits options units = .ok draft) :
    ∃ slices : List (List Line), draft.code = slices.flatten ∧ slices.length = units.length ∧
      ∀ (index : Nat) (unit : SourceUnit), units[index]? = some unit →
        ∃ slice, slices[index]? = some slice ∧ unit.Adds options (units.take index) slice := by
  induction units using List.reverseRecOn generalizing draft with
  | nil =>
    cases built
    exact ⟨[], rfl, rfl, by simp⟩
  | append_singleton before last ih =>
    obtain ⟨current, event, earlier, added⟩ := ofUnits_concat_eq_ok_iff.mp built
    obtain ⟨slices, code, length, contributions⟩ := ih earlier
    obtain ⟨slice, more⟩ : ∃ slice, draft.code = current.code ++ slice := by
      rw [add_eq_ok_iff, append_eq] at added
      split at added
      · contradiction
      · cases added
        exact ⟨_, rfl⟩
    refine ⟨slices ++ [slice], by rw [more, code]; simp, by simp [length], ?_⟩
    intro index unit found
    rcases Nat.lt_trichotomy index before.length with inside | rfl | outside
    · rw [List.getElem?_append_left inside] at found
      rw [List.getElem?_append_left (by omega), List.take_append_of_le_length inside.le]
      exact contributions index unit found
    · rw [List.getElem?_concat_length, Option.some.injEq] at found
      cases found
      rw [← length, List.getElem?_concat_length, length, List.take_left]
      exact ⟨slice, rfl, current, draft, event, earlier, added, more⟩
    · rw [List.getElem?_eq_none (by simp; omega)] at found
      contradiction

/-- A linked program is its start and then, for each unit, what a generator of its own emits with numbers that go
on. -/
theorem unit_code_standalone {options : BuildOptions} {units : List SourceUnit} {lines : List Line}
    (linked : link options units = .ok lines) :
    ∃ (draft : Draft) (slices : List (List Line)), Draft.ofUnits options units = .ok draft ∧
      lines = (if options.callsEntry units then (draft.generator.bootstrap options.entry).1 else []) ++
        slices.flatten ∧
      slices.length = units.length ∧
      ∀ (index : Nat) (unit : SourceUnit), units[index]? = some unit →
        ∃ slice final, slices[index]? = some slice ∧ unit.Adds options (units.take index) slice ∧
          Lowering.commands unit.commands
            (.standalone options.annotate
              (((units.take index).flatMap SourceUnit.commands).countP Command.takesNumber) unit.name) =
            .ok slice final := by
  obtain ⟨draft, built, finished⟩ := Runs.bind_eq_ok_iff.mp linked
  cases finished
  obtain ⟨rfl, made⟩ := Draft.foldlM_add_madeOf built
  obtain ⟨slices, code, length, contributions⟩ := Draft.ofUnits_slices built
  refine ⟨draft, slices, built, ?_, length, ?_⟩
  · rw [Draft.finish_lines, code, Draft.start, made.entryDefined, BuildOptions.callsEntry]
  · intro index unit found
    obtain ⟨slice, here, adds⟩ := contributions index unit found
    obtain ⟨final, alone⟩ := adds.standalone
    exact ⟨slice, final, here, adds, alone⟩

/-- A unit that ends within a function, and another that has a label and a comparison of its own. -/
def callingUnits : List SourceUnit :=
  [.ofCommands "Main" [.function "f" 0, .arithmetic .eq, .call "f" 1, .label "L"],
   .ofCommands "Lib" [.label "L", .arithmetic .lt, .pop .static 0, .ifGoto "L"]]

/-- Behind a comparison and a call, the second unit is lowered as it is alone from the number two on. -/
theorem unit_code_standalone_callingUnits :
    ∃ (draft : Draft) (first second : List Line) (one two : Generator),
      link { bootstrap := .always, entry := "f" } callingUnits =
        .ok ((draft.generator.bootstrap "f").1 ++ (first ++ second)) ∧
      Lowering.commands [.function "f" 0, .arithmetic .eq, .call "f" 1, .label "L"] (.standalone true 0 "Main") =
        .ok first one ∧
      Lowering.commands [.label "L", .arithmetic .lt, .pop .static 0, .ifGoto "L"] (.standalone true 2 "Lib") =
        .ok second two := by
  obtain ⟨lines, linked, -⟩ := @Runs.exists_of_any _ _ (link { bootstrap := .always, entry := "f" } callingUnits)
    (fun _ => true) (by decide +kernel)
  obtain ⟨draft, slices, -, whole, length, alone⟩ := unit_code_standalone linked
  obtain ⟨first, second, rfl⟩ := List.length_eq_two.mp length
  obtain ⟨_, one, here, -, firstAlone⟩ := alone 0 _ rfl
  cases here
  obtain ⟨_, two, here, -, secondAlone⟩ := alone 1 _ rfl
  cases here
  refine ⟨draft, first, second, one, two, ?_, firstAlone, secondAlone⟩
  rw [linked, whole]
  simp [BuildOptions.callsEntry, BootstrapMode.wanted]

end HackVM
