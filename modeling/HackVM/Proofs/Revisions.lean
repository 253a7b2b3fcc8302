import HackVM.Proofs.Grammar
import HackVM.Proofs.Offences

/-! # Revisions that change nothing

Lines that say nothing may be inserted into a source text, and blanks and comments added to its lines, without a
change to the program. Only the numbers of lines move, each by the number of lines inserted before it. This is
shown for the contents of a text first, then for the reading of a unit and the linking of units, whose failures
name the moved line.
-/

namespace HackVM

namespace Text

/-- Blanks that end no line. -/
def IsMargin (text : List Char) : Prop := ∀ c ∈ text, isBlank c = true ∧ c ≠ '\n'

/-- A line that says nothing: it is blank, or a comment starts after blanks. -/
inductive IsNoise : List Char → Prop where
  | blank {margin : List Char} (blank : IsMargin margin) : IsNoise margin
  | comment {margin text : List Char} (blank : IsMargin margin) (noFeed : '\n' ∉ text) :
      IsNoise (margin ++ '/' :: '/' :: text)

/-- A line with blanks added at one of its ends, or with a comment behind a space. -/
inductive Redresses : List Char → List Char → Prop where
  | lead {line margin : List Char} (blank : IsMargin margin) : Redresses line (margin ++ line)
  | trail {line margin : List Char} (blank : IsMargin margin) : Redresses line (line ++ margin)
  | remark {line text : List Char} (noFeed : '\n' ∉ text) : Redresses line (line ++ ' ' :: '/' :: '/' :: text)

/-- What may stand between a line and its line feed. -/
def IsEnding (text : List Char) : Prop := text = [] ∨ text = ['\r']

/-- Edits of the lines of a text, with the number of lines inserted before each line of the source. -/
inductive Edits (source : List (List Char)) : List (List Char) → (Nat → Nat) → Prop where
  | refl : Edits source source fun _ => 0
  | insert {before after : List (List Char)} {line : List Char} {inserted : Nat → Nat}
      (done : Edits source (before ++ after) inserted) (noise : IsNoise line) :
      Edits source (before ++ line :: after) fun number =>
        inserted number + if before.length < number + inserted number then 1 else 0
  | redress {before after : List (List Char)} {line dressed ending : List Char} {inserted : Nat → Nat}
      (done : Edits source (before ++ (line ++ ending) :: after) inserted) (ends : IsEnding ending)
      (redresses : Redresses line dressed) : Edits source (before ++ (dressed ++ ending) :: after) inserted
  | switch {before after : List (List Char)} {line ending other : List Char} {inserted : Nat → Nat}
      (done : Edits source (before ++ (line ++ ending) :: after) inserted) (ends : IsEnding ending)
      (endsToo : IsEnding other) : Edits source (before ++ (line ++ other) :: after) inserted

private theorem trim_margins {left text right : List Char} (before : ∀ c ∈ left, isBlank c = true)
    (after : ∀ c ∈ right, isBlank c = true) : trim (left ++ text ++ right) = trim text := by
  obtain ⟨⟨first, last, same, early, late⟩, head, tail⟩ := trims_trim text
  refine (trims_iff.mp ⟨⟨left ++ first, last ++ right, ?_, ?_, ?_⟩, head, tail⟩).symm
  · simpa using congrArg (fun middle => left ++ middle ++ right) same
  · rw [List.forall_mem_append]
    exact ⟨before, early⟩
  · rw [List.forall_mem_append]
    exact ⟨late, after⟩

/-- A comment does not start among characters that are no slashes. -/
theorem stripComment_lead {margin : List Char} (plain : '/' ∉ margin) (line : List Char) :
    stripComment (margin ++ line) = margin ++ stripComment line := by
  induction margin with
  | nil => rfl
  | cons c rest ih =>
    obtain ⟨other, plain⟩ := not_or.mp (mt List.mem_cons.mpr plain)
    rw [List.cons_append, stripComment.eq_3 _ _ (fun _ slash => absurd slash.symm other), ih plain,
      List.cons_append]

/-- What is appended to a line and starts with no slash is behind the comment of the line or in front of its
own. -/
theorem stripComment_trail {tail : List Char} (apart : tail.head? ≠ some '/') (line : List Char) :
    stripComment (line ++ tail) = stripComment line ∨
      stripComment (line ++ tail) = stripComment line ++ stripComment tail := by
  fun_induction stripComment line with
  | case1 => exact .inr rfl
  | case2 comment => exact .inl rfl
  | case3 c rest other ih =>
    have step : stripComment (c :: rest ++ tail) = c :: stripComment (rest ++ tail) := by
      apply stripComment.eq_3
      intro after slash starts
      cases rest with
      | nil => exact apart (congrArg List.head? starts)
      | cons d rest =>
        obtain ⟨rfl, -⟩ := List.cons.inj starts
        exact other rest slash rfl
    rw [step, List.cons_append]
    exact ih.imp (congrArg (c :: ·)) (congrArg (c :: ·))

private theorem content_lead {margin : List Char} (blank : ∀ c ∈ margin, isBlank c = true) (line : List Char) :
    content (margin ++ line) = content line := by
  have plain : '/' ∉ margin := fun member => absurd (blank '/' member) (by decide)
  rw [content, content, stripComment_lead plain]
  simpa using trim_margins blank (List.forall_mem_nil _)

/-- Nothing is said by what is blank up to its comment, unless it starts with a slash. -/
theorem content_trail {tail : List Char} (apart : tail.head? ≠ some '/')
    (blank : ∀ c ∈ stripComment tail, isBlank c = true) (line : List Char) :
    content (line ++ tail) = content line := by
  rw [content, content]
  rcases stripComment_trail apart line with same | more
  · rw [same]
  · rw [more]
    exact trim_margins (List.forall_mem_nil _) blank

private theorem content_of_margin {margin : List Char} (blank : ∀ c ∈ margin, isBlank c = true) :
    content margin = [] := by
  have nothing := content_lead blank []
  rwa [List.append_nil] at nothing

theorem IsMargin.blank {margin : List Char} (isMargin : IsMargin margin) : ∀ c ∈ margin, isBlank c = true :=
  fun c member => (isMargin c member).1

private theorem IsMargin.content_append {margin : List Char} (isMargin : IsMargin margin) (line : List Char) :
    content (line ++ margin) = content line := by
  have plain : '/' ∉ margin := fun member => absurd (isMargin.blank '/' member) (by decide)
  refine content_trail (fun head => plain (List.mem_of_head? head)) ?_ line
  rw [← List.append_nil margin, stripComment_lead plain, stripComment, List.append_nil]
  exact isMargin.blank

private theorem IsEnding.isMargin {ending : List Char} (ends : IsEnding ending) : IsMargin ending := by
  rcases ends with rfl | rfl
  · exact List.forall_mem_nil _
  · exact List.forall_mem_singleton.mpr (by decide)

theorem IsNoise.content_eq {line : List Char} (noise : IsNoise line) : content line = [] := by
  cases noise with
  | blank blank => exact content_of_margin blank.blank
  | comment blank noFeed => exact content_lead blank.blank _

theorem Redresses.content_eq {line dressed : List Char} (redresses : Redresses line dressed) :
    content dressed = content line := by
  cases redresses with
  | lead blank => exact content_lead blank.blank line
  | trail blank => exact blank.content_append line
  | remark noFeed => exact content_trail (by simp) (List.forall_mem_singleton.mpr (by decide)) line

/-- The lines that say something, with their numbers. -/
def said (lines : List (List Char)) : List (List Char × Nat) :=
  ((lines.map content).zipIdx 1).filter fun line => line.1 ≠ []

private theorem said_congr {before after : List (List Char)} {line other : List Char}
    (same : content line = content other) :
    said (before ++ line :: after) = said (before ++ other :: after) := by
  simp only [said, List.map_append, List.map_cons, same]

/-- A line that says nothing moves the lines behind it by one. -/
theorem said_insert {before after : List (List Char)} {line : List Char} (silent : content line = []) :
    said (before ++ line :: after) =
      (said (before ++ after)).map fun other => (other.1, other.2 + if before.length < other.2 then 1 else 0) := by
  simp only [said, List.map_append, List.map_cons, List.zipIdx_append, List.zipIdx_cons, List.filter_append, silent,
    List.length_map]
  congr 1
  · refine .symm ((List.map_congr_left fun other member => ?_).trans (List.map_id _))
    have early := List.snd_lt_add_of_mem_zipIdx (List.mem_of_mem_filter member)
    rw [List.length_map] at early
    rw [if_neg (by omega)]
    rfl
  · rw [List.filter_cons_of_neg (by simp), List.zipIdx_succ, List.filter_map]
    apply List.map_congr_left
    intro other member
    have late := List.le_snd_of_mem_zipIdx (List.mem_of_mem_filter member)
    rw [if_pos (by omega)]

/-- Edits leave what a text says as it is, on lines that moved by the lines inserted before them. -/
theorem Edits.said_eq {source edited : List (List Char)} {inserted : Nat → Nat}
    (edits : Edits source edited inserted) :
    said edited = (said source).map fun line => (line.1, line.2 + inserted line.2) := by
  induction edits with
  | refl => simp
  | insert done noise ih =>
    rw [said_insert noise.content_eq, ih, List.map_map]
    apply List.map_congr_left
    intro line _
    simp only [Function.comp_apply, Nat.add_assoc]
  | redress done ends redresses ih =>
    rw [← ih]
    apply said_congr
    rw [ends.isMargin.content_append, ends.isMargin.content_append, redresses.content_eq]
  | switch done ends endsToo ih =>
    rw [← ih]
    apply said_congr
    rw [ends.isMargin.content_append, endsToo.isMargin.content_append]

/-- Carriage returns in front of line feeds say nothing. -/
theorem map_content_lines (text : List Char) : (lines text).map content = (pieces '\n' text).map content := by
  have dropped : content ∘ dropReturn = content := by
    funext piece
    rw [Function.comp_apply]
    by_cases ends : piece.getLast? = some '\r'
    · obtain ⟨line, rfl⟩ := List.getLast?_eq_some_iff.mp ends
      rw [dropReturn_concat, (IsEnding.isMargin (.inr rfl)).content_append]
    · rw [dropReturn_of_ne ends]
  have split := List.dropLast_append_getLast (pieces_ne_nil '\n' text)
  rw [lines, List.getLast?_eq_getLast_of_ne_nil (pieces_ne_nil '\n' text)]
  conv_rhs => rw [← split]
  simp [dropped]

end Text

section Moved

variable (move : Nat → Nat)

/-- The command on the line that its line moves to. -/
def NumberedCommand.moved (numbered : NumberedCommand) : NumberedCommand :=
  { numbered with line := move numbered.line }

/-- The error on the line that its line moves to. -/
def ReadError.moved (error : ReadError) : ReadError := { error with line := move error.line }

/-- The error on the line that its line moves to. -/
def UnitError.moved (error : UnitError) : UnitError := { error with line := move error.line }

/-- The unit with its commands on other lines. -/
def SourceUnit.moved (unit : SourceUnit) : SourceUnit :=
  { unit with listing := unit.listing.map (NumberedCommand.moved move) }

private theorem Listing.numberedCommand_moved (content : List Char) (number : Nat) :
    numberedCommand (move number, content) =
      ((numberedCommand (number, content)).map (NumberedCommand.moved move)).mapError (ReadError.moved move) := by
  rw [numberedCommand, numberedCommand]
  cases command content <;> rfl

/-- Lines that moved are read as before, and what is read is on the moved lines. -/
theorem Listing.mapM_numberedCommand_moved (said : List (List Char × Nat)) :
    (said.map fun line => (line.1, move line.2)).mapM (fun line => numberedCommand line.swap) =
      ((said.mapM fun line => numberedCommand line.swap).map (List.map (NumberedCommand.moved move))).mapError
        (ReadError.moved move) := by
  induction said with
  | nil => rfl
  | cons line rest ih =>
    obtain ⟨content, number⟩ := line
    rw [List.map_cons, List.mapM_cons, List.mapM_cons, ih, Prod.swap_prod_mk, Prod.swap_prod_mk,
      numberedCommand_moved]
    cases numberedCommand (number, content) with
    | error fault => rfl
    | ok first => cases rest.mapM fun line => numberedCommand line.swap <;> rfl

private theorem Draft.numberedCode_moved (numbered : NumberedCommand) :
    numberedCode (numbered.moved move) = (numberedCode numbered).adaptExcept (Prod.map move id) := by
  funext generator
  simp only [numberedCode, NumberedCommand.moved, EStateM.adaptExcept]
  cases Lowering.command numbered.command generator <;> rfl

/-- Lowering a listing on moved lines fails on the moved line. -/
theorem Draft.mapM_numberedCode_moved (listing : Listing) :
    (listing.map (NumberedCommand.moved move)).mapM numberedCode =
      (listing.mapM numberedCode).adaptExcept (Prod.map move id) := by
  induction listing with
  | nil => rfl
  | cons numbered rest ih =>
    rw [List.map_cons, List.mapM_cons, List.mapM_cons, numberedCode_moved, ih]
    funext generator
    simp only [bind, EStateM.bind, EStateM.adaptExcept]
    cases numberedCode numbered generator with
    | error failure stopped => rfl
    | ok lines next =>
      simp only
      cases rest.mapM numberedCode next <;> rfl

private theorem SourceUnit.defines_moved (unit : SourceUnit) (function : String) :
    (unit.moved move).defines function = unit.defines function := by
  simp only [defines, moved, List.any_map]
  rfl

/-- Adding a unit on moved lines fails on the moved line, and otherwise has the same result. -/
theorem Draft.add_moved (draft : Draft) (unit : SourceUnit) :
    draft.add (unit.moved move) = (draft.add unit).mapError (UnitError.moved move) := by
  have lowered : (unit.moved move).listing.mapM numberedCode =
      (unit.listing.mapM numberedCode).adaptExcept (Prod.map move id) := mapM_numberedCode_moved move unit.listing
  rw [add, add, append_eq, append_eq, lowered, SourceUnit.defines_moved]
  simp only [EStateM.adaptExcept, SourceUnit.moved, List.length_map]
  cases unit.listing.mapM numberedCode (draft.generator.enterUnit unit.name) <;> rfl

end Moved

/-- Units on moved lines are added with the same result, if all of them can be. -/
theorem Draft.foldlM_add_moved {units others : List SourceUnit}
    (same : List.Forall₂ (fun unit other => ∃ move, other = unit.moved move) units others) {draft final : Draft}
    (added : units.foldlM (fun draft unit => return (← draft.add unit).1) draft = .ok final) :
    others.foldlM (fun draft unit => return (← draft.add unit).1) draft = .ok final := by
  induction same generalizing draft with
  | nil => exact added
  | cons first _ ih =>
    obtain ⟨move, rfl⟩ := first
    obtain ⟨next, stepped, later⟩ := Runs.foldlM_cons_eq_ok_iff.mp added
    obtain ⟨result, ran, returned⟩ := Runs.bind_eq_ok_iff.mp stepped
    refine Runs.foldlM_cons_eq_ok_iff.mpr ⟨next, ?_, ih later⟩
    rw [add_moved, ran]
    exact returned

/-- A source text of a unit and an edited one. -/
structure Revision where
  unit : String
  source : String
  edited : String
  inserted : Nat → Nat
  edits : Text.Edits (Text.pieces '\n' source.toList) (Text.pieces '\n' edited.toList) inserted

namespace Revision

/-- The named source text. -/
def before (revision : Revision) : String × String := (revision.unit, revision.source)

/-- The named text after the edits. -/
def after (revision : Revision) : String × String := (revision.unit, revision.edited)

/-- The number that a line has after the edits. -/
def move (revision : Revision) (line : Nat) : Nat := line + revision.inserted line

/-- The edited text is read as the source text is, on moved lines. -/
theorem ofSource_after (revision : Revision) :
    SourceUnit.ofSource revision.after.1 revision.after.2 =
      ((SourceUnit.ofSource revision.before.1 revision.before.2).map (SourceUnit.moved revision.move)).mapError
        (UnitError.moved revision.move) := by
  have said := revision.edits.said_eq
  simp only [Text.said, ← Text.map_content_lines] at said
  rw [SourceUnit.ofSource, SourceUnit.ofSource, Listing.ofSource_eq, Listing.ofSource_eq, after, before, said]
  have read := Listing.mapM_numberedCommand_moved revision.move
    ((((Text.lines revision.source.toList).map Text.content).zipIdx 1).filter fun line => line.1 ≠ [])
  simp only [move] at read
  rw [read]
  generalize List.mapM (fun line : List Char × Nat => Listing.numberedCommand line.swap) _ = result
  cases result <;> rfl

end Revision

private theorem SourceUnit.ofSource_eq_error {name source : String} {error : UnitError}
    (failed : ofSource name source = .error error) :
    error.unit = name ∧ ∃ fault, error.fault = .reading fault := by
  rw [ofSource] at failed
  split at failed
  · contradiction
  · cases failed
    exact ⟨rfl, _, rfl⟩

private theorem SourceUnit.name_ofSource {name source : String} {unit : SourceUnit}
    (read : ofSource name source = .ok unit) : unit.name = name := by
  rw [ofSource] at read
  split at read
  · cases read
    rfl
  · contradiction

private theorem Draft.add_eq_error {draft : Draft} {unit : SourceUnit} {error : UnitError}
    (failed : draft.add unit = .error error) : error.unit = unit.name ∧ ∃ fault, error.fault = .lowering fault := by
  rw [add, append_eq] at failed
  cases lowered : unit.listing.mapM numberedCode (draft.generator.enterUnit unit.name) with
  | ok blocks next =>
    rw [lowered] at failed
    contradiction
  | error failure stopped =>
    rw [lowered] at failed
    cases failed
    exact ⟨rfl, _, rfl⟩

/-- Linking sources fails at one of them. It is the first that cannot be read, or the first that has no code when
all can be. -/
inductive FailsAt (options : BuildOptions) (earlier : List (String × String)) (source : String × String)
    (later : List (String × String)) (error : UnitError) : Prop where
  | reading {units : List SourceUnit}
      (read : earlier.mapM (fun source => SourceUnit.ofSource source.1 source.2) = .ok units)
      (failed : SourceUnit.ofSource source.1 source.2 = .error error)
  | lowering {units rest : List SourceUnit} {unit : SourceUnit} {draft : Draft}
      (read : earlier.mapM (fun source => SourceUnit.ofSource source.1 source.2) = .ok units)
      (readIt : SourceUnit.ofSource source.1 source.2 = .ok unit)
      (readRest : later.mapM (fun source => SourceUnit.ofSource source.1 source.2) = .ok rest)
      (added : units.foldlM (fun draft unit => return (← draft.add unit).1) (Draft.empty options) = .ok draft)
      (failed : draft.add unit = .error error)

private theorem linkSources_eq_error_iff {options : BuildOptions} {sources : List (String × String)}
    {error : UnitError} :
    linkSources options sources = .error error ↔
      ∃ earlier source later, sources = earlier ++ source :: later ∧ FailsAt options earlier source later error := by
  rw [linkSources, Runs.bind_eq_error_iff]
  constructor
  · rintro (unread | ⟨units, read, failed⟩)
    · obtain ⟨earlier, source, later, units, rfl, read, failed⟩ := Runs.mapM_eq_error_iff.mp unread
      exact ⟨earlier, source, later, rfl, .reading read failed⟩
    · obtain ⟨before, unit, after, draft, rfl, added, failed⟩ := link_eq_error_iff_add.mp failed
      rw [Runs.mapM_eq_ok_iff] at read
      have first := List.forall₂_take_append _ _ _ read
      obtain ⟨source, later, readIt, readRest, split⟩ :=
        List.forall₂_cons_right_iff.mp (List.forall₂_drop_append _ _ _ read)
      refine ⟨sources.take before.length, source, later, ?_, .lowering (Runs.mapM_eq_ok_iff.mpr first) readIt
        (Runs.mapM_eq_ok_iff.mpr readRest) added failed⟩
      rw [← split, List.take_append_drop]
  · rintro ⟨earlier, source, later, rfl, fails⟩
    cases fails with
    | reading read failed =>
      exact .inl (Runs.mapM_eq_error_iff.mpr ⟨earlier, source, later, _, rfl, read, failed⟩)
    | @lowering units rest unit draft read readIt readRest added failed =>
      refine .inr ⟨units ++ unit :: rest, ?_, ?_⟩
      · rw [Runs.mapM_eq_ok_iff] at read readRest ⊢
        exact List.rel_append read (.cons readIt readRest)
      · exact link_eq_error_iff_add.mpr ⟨units, unit, rest, draft, rfl, added, failed⟩

namespace FailsAt

variable {options : BuildOptions} {earlier later : List (String × String)} {source : String × String}
  {error : UnitError}

private theorem linkSources_eq (fails : FailsAt options earlier source later error) :
    linkSources options (earlier ++ source :: later) = .error error :=
  linkSources_eq_error_iff.mpr ⟨earlier, source, later, rfl, fails⟩

private theorem unit_eq (fails : FailsAt options earlier source later error) : error.unit = source.1 := by
  cases fails with
  | reading _ failed => exact (SourceUnit.ofSource_eq_error failed).1
  | lowering _ read _ _ failed => rw [(Draft.add_eq_error failed).1, SourceUnit.name_ofSource read]

/-- The sources after the failing one do not matter. -/
theorem last (fails : FailsAt options earlier source later error) : FailsAt options earlier source [] error := by
  cases fails with
  | reading read failed => exact .reading read failed
  | lowering read readIt _ added failed => exact .lowering read readIt rfl added failed

/-- The sources before the failing one do not have its error: when it cannot be read, they can. -/
theorem linkSources_earlier (fails : FailsAt options earlier source later error) :
    linkSources options earlier ≠ .error error := by
  intro alike
  obtain unread | ⟨units, read, failedToo⟩ := Runs.bind_eq_error_iff.mp alike
  · cases fails with
    | reading read _ | lowering read _ _ _ _ => exact absurd (unread.symm.trans read) (by simp)
  · cases fails with
    | reading _ failed =>
      obtain ⟨_, _, _, _, _, _, failedToo⟩ := link_eq_error_iff_add.mp failedToo
      obtain ⟨-, fault, unread⟩ := SourceUnit.ofSource_eq_error failed
      obtain ⟨-, other, unlowered⟩ := Draft.add_eq_error failedToo
      exact absurd (unread.symm.trans unlowered) (by simp)
    | lowering readToo _ _ added _ =>
      cases Except.ok.inj (read.symm.trans readToo)
      rw [link_eq_error_iff_foldlM, added] at failedToo
      contradiction

end FailsAt

namespace Revision

/-- Where all sources can be read, so can the edited ones. -/
theorem exists_mapM_after {revisions : List Revision} {units : List SourceUnit}
    (read : (revisions.map before).mapM (fun source => SourceUnit.ofSource source.1 source.2) = .ok units) :
    ∃ others, (revisions.map after).mapM (fun source => SourceUnit.ofSource source.1 source.2) = .ok others ∧
      List.Forall₂ (fun unit other => ∃ move, other = unit.moved move) units others := by
  simp only [Runs.mapM_eq_ok_iff, List.forall₂_map_left_iff] at read ⊢
  induction read with
  | nil => exact ⟨[], .nil, .nil⟩
  | @cons revision unit revisions units first _ ih =>
    obtain ⟨others, readable, same⟩ := ih
    refine ⟨unit.moved revision.move :: others, .cons ?_ readable, .cons ⟨revision.move, rfl⟩ same⟩
    rw [ofSource_after, first]
    rfl

/-- Edited sources fail at the same one, with the error on the moved line. -/
theorem failsAt_after {options : BuildOptions} {earlier later : List Revision} {revision : Revision}
    {error : UnitError} (fails : FailsAt options (earlier.map before) revision.before (later.map before) error) :
    FailsAt options (earlier.map after) revision.after (later.map after) (error.moved revision.move) := by
  cases fails with
  | reading read failed =>
    obtain ⟨others, readable, -⟩ := exists_mapM_after read
    refine .reading readable ?_
    rw [ofSource_after, failed]
    rfl
  | @lowering units rest unit draft read readIt readRest added failed =>
    obtain ⟨others, readable, same⟩ := exists_mapM_after read
    obtain ⟨_, readableRest, -⟩ := exists_mapM_after readRest
    have readableIt : SourceUnit.ofSource revision.after.1 revision.after.2 = .ok (unit.moved revision.move) := by
      rw [ofSource_after, readIt]
      rfl
    refine .lowering readable readableIt readableRest (Draft.foldlM_add_moved same added) ?_
    rw [Draft.add_moved, failed]
    rfl

private theorem linkSources_after {options : BuildOptions} {revisions : List Revision} {lines : List Line}
    (linked : linkSources options (revisions.map before) = .ok lines) :
    linkSources options (revisions.map after) = .ok lines := by
  obtain ⟨units, read, linked⟩ := Runs.bind_eq_ok_iff.mp linked
  obtain ⟨draft, added, finished⟩ := Runs.bind_eq_ok_iff.mp linked
  obtain ⟨others, readable, same⟩ := exists_mapM_after read
  exact Runs.bind_eq_ok_iff.mpr ⟨others, readable,
    Runs.bind_eq_ok_iff.mpr ⟨draft, Draft.foldlM_add_moved same added, finished⟩⟩

end Revision

/-- Edited sources are linked to the same lines, or fail with the same error on the moved line. -/
theorem revisions_change_nothing (options : BuildOptions) (revisions : List Revision) :
    (∃ lines, linkSources options (revisions.map Revision.before) = .ok lines ∧
      linkSources options (revisions.map Revision.after) = .ok lines) ∨
    ∃ earlier revision later error, revisions = earlier ++ revision :: later ∧
      linkSources options (earlier.map Revision.before) ≠ .error error ∧
      linkSources options ((earlier ++ [revision]).map Revision.before) = .error error ∧
      error.unit = revision.unit ∧
      linkSources options (revisions.map Revision.before) = .error error ∧
      linkSources options (revisions.map Revision.after) =
        .error { error with line := error.line + revision.inserted error.line } := by
  cases linked : linkSources options (revisions.map Revision.before) with
  | ok lines => exact .inl ⟨lines, rfl, Revision.linkSources_after linked⟩
  | error error =>
    obtain ⟨_, _, _, split, fails⟩ := linkSources_eq_error_iff.mp linked
    obtain ⟨earlier, _, rfl, rfl, rest⟩ := List.map_eq_append_iff.mp split
    obtain ⟨revision, later, rfl, rfl, rfl⟩ := List.map_eq_cons_iff.mp rest
    refine .inr ⟨earlier, revision, later, error, rfl, fails.linkSources_earlier, ?_, fails.unit_eq, rfl, ?_⟩
    · rw [List.map_append]
      exact fails.last.linkSources_eq
    · rw [List.map_append]
      exact (Revision.failsAt_after fails).linkSources_eq

private theorem remarked_edits :
    Text.Edits (Text.pieces '\n' "push constant 1\nbogus\n".toList)
      (Text.pieces '\n' "// start\n\t push constant 1 // one\n \t\nbogus\r\n".toList) fun number => min number 2 := by
  let first := "push constant 1".toList
  let second := "bogus".toList
  let lines := [first ++ [], second ++ [], []]
  let comment := [] ++ '/' :: '/' :: " start".toList
  let dressed := "\t ".toList ++ first
  let remarked := dressed ++ ' ' :: '/' :: '/' :: " one".toList
  have source : Text.pieces '\n' "push constant 1\nbogus\n".toList = lines := by decide +kernel
  have edited : Text.pieces '\n' "// start\n\t push constant 1 // one\n \t\nbogus\r\n".toList =
      [comment, remarked ++ [], " \t".toList, second ++ ['\r'], []] := by decide +kernel
  have margin : Text.IsMargin "\t ".toList := by
    rw [Text.IsMargin]
    decide +kernel
  have blank : Text.IsMargin " \t".toList := by
    rw [Text.IsMargin]
    decide +kernel
  have opened : Text.Edits lines ([] ++ comment :: lines) _ :=
    .insert .refl (.comment (List.forall_mem_nil _) (by decide))
  have indented : Text.Edits lines ([comment] ++ (dressed ++ []) :: [second ++ [], []]) _ :=
    .redress opened (.inl rfl) (.lead margin)
  have noted : Text.Edits lines ([comment] ++ (remarked ++ []) :: [second ++ [], []]) _ :=
    .redress indented (.inl rfl) (.remark (by decide))
  have parted : Text.Edits lines ([comment, remarked ++ []] ++ " \t".toList :: [second ++ [], []]) _ :=
    .insert noted (.blank blank)
  have ended : Text.Edits lines ([comment, remarked ++ [], " \t".toList] ++ (second ++ ['\r']) :: [[]]) _ :=
    .switch parted (.inl rfl) (.inr rfl)
  have moved : (fun number => min number 2) = fun number : Nat =>
      (0 + if 0 < number + 0 then 1 else 0) + if 2 < number + (0 + if 0 < number + 0 then 1 else 0) then 1 else 0 := by
    funext number
    split_ifs <;> omega
  rw [source, edited, moved]
  exact ended

/-- A comment and a blank line more, a margin and a remark around a command, and another ending. -/
def remarkedRevision : Revision where
  unit := "Main"
  source := "push constant 1\nbogus\n"
  edited := "// start\n\t push constant 1 // one\n \t\nbogus\r\n"
  inserted number := min number 2
  edits := remarked_edits

/-- The line with the error moves from the second to the fourth. -/
theorem revisions_change_nothing_remarked :
    linkSources {} [remarkedRevision.before] = .error ⟨"Main", 2, .reading (.unrecognizedMnemonic "bogus")⟩ ∧
      linkSources {} [remarkedRevision.after] = .error ⟨"Main", 4, .reading (.unrecognizedMnemonic "bogus")⟩ := by
  have failed : linkSources {} [remarkedRevision.before] =
      .error ⟨"Main", 2, .reading (.unrecognizedMnemonic "bogus")⟩ := by decide +kernel
  refine ⟨failed, ?_⟩
  rcases revisions_change_nothing {} [remarkedRevision] with
    ⟨lines, linked, -⟩ | ⟨earlier, revision, later, error, split, -, -, -, same, moved⟩
  · cases failed.symm.trans linked
  · obtain ⟨rfl, rfl, -⟩ : earlier = [] ∧ revision = remarkedRevision ∧ later = [] := by
      simpa [List.append_eq_cons_iff] using split.symm
    cases failed.symm.trans same
    exact moved

end HackVM
