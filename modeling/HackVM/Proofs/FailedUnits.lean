import HackVM.Proofs.Annotations

/-! # Units that fail leave no trace

Appending a unit works on the draft in place: the generator moves to the unit, numbers and defines labels
and records static variables until a command has no code. Whatever it did by then is undone, so a session
that goes on after failures ends in the draft of a session with the other units alone. These are the units that
the last event counts and that the finished program is linked from, and in automatic mode the program starts with
the opening call iff one of them defines the entry.
-/

namespace HackVM

namespace Draft

/-- A session with units that can all be added appends all of them. -/
theorem appendEach_eq_of_adds {draft final : Draft} {units : List SourceUnit}
    (added : units.foldlM (fun draft unit => return (← draft.add unit).1) draft = .ok final) :
    draft.appendEach units = (final, units) := by
  induction units generalizing draft with
  | nil =>
    cases added
    rfl
  | cons unit rest ih =>
    obtain ⟨next, step, later⟩ := Runs.foldlM_cons_eq_ok_iff.mp added
    obtain ⟨⟨result, event⟩, ran, returned⟩ := Runs.bind_eq_ok_iff.mp step
    cases returned
    have following : result.appendEach rest = (final, rest) := ih later
    simp only [appendEach, add_eq_ok_iff.mp ran, following]

/-- The last event of a finished draft. -/
theorem getLast?_finish (draft : Draft) :
    draft.finish.2.getLast? = some (.linkedProgram draft.units draft.generator.statics.count
      draft.finish.1.length (draft.options.bootstrap.wanted draft.entryDefined)) := by
  cases wanted : draft.options.bootstrap.wanted draft.entryDefined <;>
    simp [finish, wanted, Generator.bootstrap]

end Draft

/-- A unit that fails leaves the draft as it was, so a session ends as if only the units that were appended had been
tried. -/
theorem failed_units_leave_no_trace (options : BuildOptions) (units : List SourceUnit) :
    let session := (Draft.empty options).appendEach units
    let replay := (Draft.empty options).appendEach session.2
    let lines := session.1.finish.1
    (∀ unit draft error left, Draft.append unit draft = .error error left → left = draft) ∧
      session.2.Sublist units ∧ replay.2 = session.2 ∧ replay.1 = session.1 ∧
      replay.1.finish = session.1.finish ∧ link options session.2 = .ok lines ∧
      ∃ calls : Bool,
        session.1.finish.2.getLast? = some (.linkedProgram session.2.length
          session.1.generator.statics.count lines.length calls) ∧
        lines = (if calls then (session.1.generator.bootstrap options.entry).1 else []) ++ session.1.code ∧
        (Template.initStack <+: Line.uncommented lines ↔ calls = true) ∧
        (options.bootstrap = .auto →
          (calls = true ↔ ∃ unit ∈ session.2, ∃ locals, .function options.entry locals ∈ unit.commands)) := by
  intro session replay lines
  obtain ⟨sublist, added⟩ := (Draft.empty options).appendEach_adds units
  obtain ⟨same, made⟩ := Draft.foldlM_add_madeOf added
  have replayed : replay = (session.1, session.2) := Draft.appendEach_eq_of_adds added
  have linked : link options session.2 = .ok lines := Runs.bind_eq_ok_iff.mpr ⟨session.1, added, rfl⟩
  have flag : session.1.options.bootstrap.wanted session.1.entryDefined = options.callsEntry session.2 := by
    rw [made.entryDefined, same]
    rfl
  refine ⟨fun _ _ _ _ => Draft.append_eq_error, sublist, ?_, ?_, ?_, linked, options.callsEntry session.2, ?_, ?_,
    link_boots_iff linked, BuildOptions.callsEntry_iff_exists⟩
  · rw [replayed]
  · rw [replayed]
  · rw [replayed]
  · rw [Draft.getLast?_finish, made.count, flag]
  · rw [← flag, ← same]
    exact session.1.finish_lines

-- The first unit fails after a function and a comparison, whose names are free again for the second.
example :
    let failing := [.function "f" 0, .arithmetic .eq, .push .static 3, .pop .constant 0]
    let session := (Draft.empty {}).appendEach [.ofCommands "Main" failing, .ofCommands "Main" (failing.take 2)]
    Line.labels session.1.finish.1 = ["f", "Main:CMP_0", "Main:ENDCMP_0"] := by
  decide +kernel

end HackVM
