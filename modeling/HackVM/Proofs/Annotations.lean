import HackVM.Proofs.Offences
import HackVM.Proofs.UniqueLabels

/-! # Programs with and without annotations

An annotation is a comment in front of the code of a command. Whatever its text is, the assembler reads
nothing from it, and whatever names a program uses, no other line of it looks like a comment. Units fail for
the same reasons with annotations and without, and the tables they leave are the same, so the opening call
returns to the same label. Hence a program with annotations is the one without, between comments.
-/

namespace HackVM

/-- Whether a line of text starts with a comment. -/
def Text.opensComment (line : String) : Bool := ['/', '/'].isPrefixOf line.toList

/-- Nothing is read from a line that starts with a comment. -/
theorem Statement.ofLine?_of_opensComment {line : String} (opens : Text.opensComment line = true) :
    ofLine? line = none := by
  obtain ⟨rest, text⟩ := List.isPrefixOf_iff_prefix.mp opens
  rw [ofLine?, ← text, List.cons_append, List.cons_append, Text.stripComment]
  rfl

/-- Deleting the lines that start with a comment does not change what is assembled. -/
theorem Image.assemble_filter_opensComment (lines : List String) :
    assemble (lines.filter fun line => !Text.opensComment line) = assemble lines := by
  rw [assemble, assemble, List.filterMap_filter]
  congr 2
  funext line
  cases opens : Text.opensComment line with
  | false => rfl
  | true => exact (Statement.ofLine?_of_opensComment opens).symm

namespace Line

/-- The text of a comment. -/
def comment? : Line → Option String
  | comment text => some text
  | label _ | operation _ => none

/-- The texts of the comments among lines, in order. -/
def comments (lines : List Line) : List String := lines.filterMap comment?

/-- The lines that are no comments. -/
def uncommented (lines : List Line) : List Line := lines.filter fun line => line.comment?.isNone

@[simp] theorem comments_append (first second : List Line) :
    comments (first ++ second) = comments first ++ comments second :=
  List.filterMap_append

@[simp] theorem uncommented_append (first second : List Line) :
    uncommented (first ++ second) = uncommented first ++ uncommented second :=
  List.filter_append ..

@[simp] theorem comments_comment (text : String) (rest : List Line) :
    comments (comment text :: rest) = text :: comments rest := rfl

@[simp] theorem uncommented_comment (text : String) (rest : List Line) :
    uncommented (comment text :: rest) = uncommented rest := rfl

private theorem comments_eq_nil_iff {lines : List Line} : comments lines = [] ↔ ∀ line ∈ lines, line.comment? = none :=
  List.filterMap_eq_nil_iff

private theorem uncommented_eq_self {lines : List Line} (none : comments lines = []) : uncommented lines = lines := by
  rw [uncommented, List.filter_eq_self]
  intro line member
  rw [comments_eq_nil_iff.mp none line member]
  rfl

/-- Only the text of a comment starts with a comment. -/
theorem opensComment_render (line : Line) : Text.opensComment line.render = line.comment?.isSome := by
  cases line with
  | comment text => simp [Text.opensComment, render, comment?]
  | label name => simp [Text.opensComment, render, comment?, List.isPrefixOf]
  | operation code =>
    cases code with
    | number value => simp [Text.opensComment, render, Operation.render, comment?, List.isPrefixOf]
    | symbol name => simp [Text.opensComment, render, Operation.render, comment?, List.isPrefixOf]
    | compute dest comp jump =>
      obtain ⟨-, chars⟩ := Operation.render_compute_chars dest comp jump
      rw [comment?, Option.isSome_none, Text.opensComment, ← Bool.not_eq_true, List.isPrefixOf_iff_prefix]
      intro opens
      exact absurd (chars '/' (opens.subset (List.mem_cons_self ..))) (by decide)

/-- The lines of text that start with a comment are those of the comments, in order. -/
theorem filter_opensComment_render (lines : List Line) :
    (lines.map render).filter Text.opensComment = (comments lines).map fun text => (comment text).render := by
  induction lines with
  | nil => rfl
  | cons line rest ih =>
    rw [List.map_cons, List.filter_cons, opensComment_render, ih]
    cases line <;> rfl

/-- The other lines of text are those of the lines that are no comments. -/
theorem filter_not_opensComment_render (lines : List Line) :
    ((lines.map render).filter fun line => !Text.opensComment line) = (uncommented lines).map render := by
  rw [List.filter_map, uncommented]
  congr 2
  funext line
  rw [Function.comp_apply, opensComment_render, Option.not_isSome]

end Line

/-- The code of a command holds no comment. -/
theorem Site.comments_code (site : Site) : Line.comments site.code = [] := by
  obtain ⟨unit, function, number, command⟩ := site
  cases command with
  | arithmetic operator => cases operator <;> rfl
  | push segment index => cases segment <;> rfl
  | pop segment index => cases segment <;> rfl
  | function name locals =>
    rw [Line.comments_eq_nil_iff]
    simp only [code, Template.function, List.forall_mem_cons, List.forall_mem_flatten]
    refine ⟨rfl, ?_⟩
    intro push repeated
    rw [List.eq_of_mem_replicate repeated]
    simp [Line.symbol, Line.store, Line.comment?]
  | label | goto | ifGoto | call | ret => rfl

section Blocks

variable (annotate : Bool) (sites : List Site)

private theorem Site.uncommented_flatMap_block :
    Line.uncommented (sites.flatMap (block annotate)) = sites.flatMap code := by
  induction sites with
  | nil => rfl
  | cons site rest ih =>
    have plain := Line.uncommented_eq_self site.comments_code
    rw [List.flatMap_cons, Line.uncommented_append, ih, List.flatMap_cons, block]
    cases annotate <;> simp [plain]

private theorem Site.comments_flatMap_block :
    Line.comments (sites.flatMap (block annotate)) =
      if annotate then (sites.map Site.command).map Command.render else [] := by
  induction sites with
  | nil => cases annotate <;> rfl
  | cons site rest ih =>
    rw [List.flatMap_cons, Line.comments_append, ih, block]
    cases annotate <;> simp [comments_code]

end Blocks

/-- Without its comments a finished program is the opening call and the code of its sites. -/
theorem Draft.MadeOf.uncommented_finish {draft : Draft} {units : List SourceUnit} (made : draft.MadeOf units) :
    Line.uncommented (draft.start ++ draft.code) =
      (if draft.options.callsEntry units then
        Template.initStack ++ Template.call draft.options.entry 0 draft.returnPoint else []) ++
        (Site.ofUnits units).flatMap Site.code := by
  rw [Line.uncommented_append, made.code, Site.uncommented_flatMap_block, start, made.entryDefined,
    ← BuildOptions.callsEntry]
  split
  · rw [Generator.bootstrap]
    cases draft.generator.annotate <;> rfl
  · rfl

section Linked

variable {options others : BuildOptions} {units : List SourceUnit} {lines more : List Line}

/-- The comments of a linked program are two for the opening call and one for each command, or none. -/
theorem link_comments (linked : link options units = .ok lines) :
    Line.comments lines =
      if options.annotate then
        (if options.callsEntry units then ["bootstrap", (Command.call options.entry 0).render] else []) ++
          (units.flatMap SourceUnit.commands).map Command.render
      else [] := by
  obtain ⟨draft, rfl, made, rfl⟩ := link_eq_ok linked
  rw [Line.comments_append, made.code, Site.comments_flatMap_block, Site.ofUnits, Site.map_command_ofUnitsFrom,
    Draft.start, made.entryDefined, ← BuildOptions.callsEntry]
  split
  · rw [Generator.bootstrap, made.annotate]
    cases draft.options.annotate <;> rfl
  · cases draft.options.annotate <;> rfl

/-- Two programs of the same units that start alike differ at most in their comments. -/
theorem link_uncommented_congr (linked : link options units = .ok lines) (linkedToo : link others units = .ok more)
    (mode : options.bootstrap = others.bootstrap) (entry : options.entry = others.entry) :
    Line.uncommented lines = Line.uncommented more := by
  obtain ⟨draft, rfl, made, rfl⟩ := link_eq_ok linked
  obtain ⟨other, rfl, madeToo, rfl⟩ := link_eq_ok linkedToo
  rw [made.uncommented_finish, madeToo.uncommented_finish, BuildOptions.callsEntry, BuildOptions.callsEntry, mode,
    entry, made.returnPoint_eq madeToo]

end Linked

/-- No command begins by aiming SP. -/
theorem Site.not_initStack {site : Site} (admitted : site.command.Admitted) (rest : List Line) :
    ¬ Template.initStack <+: site.code ++ rest := by
  rintro ⟨tail, same⟩
  have first := congrArg List.head? same
  obtain ⟨unit, function, number, command⟩ := site
  cases command with
  | arithmetic operator => cases operator <;> cases first
  | push segment index =>
    cases segment with
    | constant => cases congrArg (fun lines => lines[3]?) same
    | locals | argument | this | that | static | pointer | temp => cases first
  | pop segment index =>
    cases segment with
    | constant => exact admitted.1 rfl
    | locals | argument | this | that | static | pointer | temp => cases first
  | label | goto | ifGoto | function | call | ret => cases first

/-- A linked program begins by aiming SP iff it calls its entry. -/
theorem link_boots_iff {options : BuildOptions} {units : List SourceUnit} {lines : List Line}
    (linked : link options units = .ok lines) :
    Template.initStack <+: Line.uncommented lines ↔ options.callsEntry units = true := by
  obtain ⟨draft, rfl, made, rfl⟩ := link_eq_ok linked
  rw [made.uncommented_finish]
  constructor
  · intro boots
    by_contra uncalled
    rw [if_neg uncalled, List.nil_append] at boots
    have admitted := made.admitted
    cases sites : Site.ofUnits units with
    | nil =>
      rw [sites] at boots
      exact absurd (List.prefix_nil.mp boots) (by decide)
    | cons site rest =>
      rw [sites, List.flatMap_cons] at boots
      exact site.not_initStack (admitted site (by simp [sites])) _ boots
  · intro called
    rw [if_pos called, List.append_assoc]
    exact List.prefix_append ..

private theorem Line.render_comment_call (entry : String) :
    (comment (Command.call entry 0).render).render = "// call " ++ entry ++ " 0" := by
  have zero : Word.decimal 0 = "0" := by decide
  rw [render, Command.render, zero, ← String.toList_inj]
  simp

/-- Options do not decide whether linking fails, nor how. -/
theorem link_error_iff (options others : BuildOptions) (units : List SourceUnit) (error : UnitError) :
    link options units = .error error ↔ link others units = .error error := by
  rw [link_eq_error_iff, link_eq_error_iff]

/-- With annotations and without, a program fails alike or links to the same lines, and the texts of its commands
are the only lines more. -/
theorem annotations_change_nothing (mode : BootstrapMode) (entry : String) (units : List SourceUnit) :
    let build (annotate : Bool) := link { bootstrap := mode, entry, annotate } units
    (∃ error, build true = .error error ∧ build false = .error error) ∨
      ∃ annotated plain, build true = .ok annotated ∧ build false = .ok plain ∧
        let texts := annotated.map Line.render
        (texts.filter fun line => !Text.opensComment line) = plain.map Line.render ∧
          texts.filter Text.opensComment =
            (if BuildOptions.callsEntry { bootstrap := mode, entry } units then
              ["// bootstrap", "// call " ++ entry ++ " 0"] else []) ++
              (units.flatMap SourceUnit.commands).map (fun command => "// " ++ command.render) ∧
          Image.assemble texts = Image.assemble (plain.map Line.render) := by
  intro build
  cases annotatedRun : build true with
  | error error => exact .inl ⟨error, rfl, (link_error_iff ..).mp annotatedRun⟩
  | ok annotated =>
    cases plainRun : build false with
    | error error =>
      have failed : build true = .error error := (link_error_iff ..).mp plainRun
      rw [annotatedRun] at failed
      contradiction
    | ok plain =>
      have same : ((annotated.map Line.render).filter fun line => !Text.opensComment line) =
          plain.map Line.render := by
        rw [Line.filter_not_opensComment_render, link_uncommented_congr annotatedRun plainRun rfl rfl,
          Line.uncommented_eq_self (link_comments plainRun)]
      refine .inr ⟨annotated, plain, rfl, rfl, same, ?_, ?_⟩
      · rw [Line.filter_opensComment_render, link_comments annotatedRun, if_pos rfl, List.map_append, List.map_map,
          apply_ite (List.map _), List.map_cons, List.map_singleton, Line.render_comment_call]
        rfl
      · rw [← same, Image.assemble_filter_opensComment]

end HackVM
