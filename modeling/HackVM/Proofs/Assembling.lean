import HackVM.Proofs.PredefinedNames

/-! # Finished programs assemble

The first pass fails on a label that is bound already and when the addresses run out. The second fails on
an operation that cannot be read and when the cells run out. None of this happens to a finished program
that is small enough and whose functions have names of their own: its labels are distinct, those built from
other names hold a mark that no predefined name holds, and every name that its code refers to is followed by
a computation, so that there are at most half as many variables as addresses.
-/

namespace HackVM

namespace Line

/-- Whether a line refers to a name. -/
def isReference : Line → Bool
  | operation (.symbol _) => true
  | operation (.number _) | operation (.compute ..) | comment _ | label _ => false

/-- The number of references to names among lines. -/
def references (lines : List Line) : Nat := lines.countP isReference

/-- At most half of the instructions refer to names. -/
def Sparse (lines : List Line) : Prop := 2 * references lines ≤ size lines

theorem Sparse.append {first second : List Line} (left : Sparse first) (right : Sparse second) :
    Sparse (first ++ second) := by
  rw [Sparse, references] at left right ⊢
  rw [List.countP_append, size_append]
  omega

theorem Sparse.flatMap {α : Type} {items : List α} {code : α → List Line}
    (each : ∀ item ∈ items, Sparse (code item)) : Sparse (items.flatMap code) := by
  induction items with
  | nil => exact Nat.le_refl 0
  | cons item rest ih =>
    obtain ⟨first, others⟩ := List.forall_mem_cons.mp each
    exact first.append (ih others)

/-- Lines that both passes of the assembler can take. -/
structure Assemblable (lines : List Line) : Prop where
  legible : ∀ line ∈ lines, line.Legible
  distinct : (labels lines).Nodup
  free : ∀ name ∈ labels lines, Image.predefined[name]? = none
  size : size lines ≤ 65535
  references : Image.firstVariable + references lines ≤ 65535

end Line

namespace Image

private theorem Labels.scan_label {labels : Labels} {name : String} (unbound : labels.symbols[name]? = none) :
    labels.scan (.label name) =
      .ok { labels with symbols := labels.symbols.insert name (BitVec.ofNat 16 labels.count) } := by
  rw [scan, if_neg]
  simpa using unbound

private theorem Labels.scan_operation {labels : Labels} (text : List Char) (room : labels.count + 1 < 65536) :
    labels.scan (.operation text) = .ok { labels with count := labels.count + 1 } := by
  rw [scan, successor?_eq_some_iff.mpr ⟨room, rfl⟩]

/-- The first pass succeeds on distinct labels that are not bound yet, while there are addresses. -/
theorem Labels.exists_run {lines : List Line} (legible : ∀ line ∈ lines, line.Legible)
    (distinct : (Line.labels lines).Nodup) {labels : Labels}
    (free : ∀ name ∈ Line.labels lines, labels.symbols[name]? = none)
    (room : labels.count + Line.size lines ≤ 65535) :
    ∃ final, (Line.statements lines).foldlM scan labels = .ok final := by
  induction lines generalizing labels with
  | nil => exact ⟨labels, rfl⟩
  | cons line rest ih =>
    obtain ⟨first, others⟩ := List.forall_mem_cons.mp legible
    cases line with
    | comment text =>
      rw [Line.statements_comment]
      exact ih others distinct free (by simpa using room)
    | label name =>
      obtain ⟨fresh, distinct⟩ := List.nodup_cons.mp distinct
      obtain ⟨unbound, free⟩ := List.forall_mem_cons.mp free
      have still : ∀ other ∈ Line.labels rest,
          (labels.symbols.insert name (BitVec.ofNat 16 labels.count))[other]? = none := by
        intro other member
        rw [labels.symbols.getElem?_insert_of_ne _ _, free other member]
        rintro rfl
        exact fresh member
      obtain ⟨final, later⟩ := @ih others distinct ⟨_, labels.count⟩ still (by simpa using room)
      rw [Line.statements_label first]
      exact ⟨final, Runs.foldlM_cons_eq_ok_iff.mpr ⟨_, scan_label unbound, later⟩⟩
    | operation code =>
      rw [Line.size_operation, ← Nat.add_assoc, Nat.add_right_comm] at room
      obtain ⟨final, later⟩ := @ih others distinct ⟨labels.symbols, labels.count + 1⟩ free room
      rw [Line.statements_operation (Statement.ofLine?_operation code first)]
      exact ⟨final, Runs.foldlM_cons_eq_ok_iff.mpr ⟨_, scan_operation _ (by omega), later⟩⟩

/-- An operation is placed while there is a cell for the name that it may refer to. -/
theorem Layout.exists_place {layout : Layout} {code : Operation}
    (room : layout.nextVariable + (if Line.isReference (.operation code) then 1 else 0) ≤ 65535) :
    ∃ next, layout.place code = .ok next ∧
      next.nextVariable ≤ layout.nextVariable + if Line.isReference (.operation code) then 1 else 0 := by
  cases code with
  | number value => exact ⟨_, rfl, Nat.le_refl _⟩
  | compute dest comp jump => exact ⟨_, rfl, Nat.le_refl _⟩
  | symbol name =>
    simp only [Line.isReference, ↓reduceIte] at room ⊢
    cases bound : layout.symbols[name]? with
    | some address =>
      refine ⟨layout.emit (.load address), by rw [place, bound], ?_⟩
      simp only [emit]
      omega
    | none =>
      refine ⟨_, by rw [place, bound, successor?_eq_some_iff.mpr ⟨by omega, rfl⟩], Nat.le_refl _⟩

/-- The second pass succeeds on legible lines, while there are cells for the names that they refer to. -/
theorem Layout.exists_run {lines : List Line} (legible : ∀ line ∈ lines, line.Legible) {layout : Layout}
    (room : layout.nextVariable + Line.references lines ≤ 65535) :
    ∃ final, (Line.statements lines).foldlM scan layout = .ok final := by
  induction lines generalizing layout with
  | nil => exact ⟨layout, rfl⟩
  | cons line rest ih =>
    obtain ⟨first, others⟩ := List.forall_mem_cons.mp legible
    cases line with
    | comment text =>
      rw [Line.statements_comment]
      exact ih others room
    | label name =>
      rw [Line.statements_label first]
      exact ih others room
    | operation code =>
      rw [Line.references, List.countP_cons] at room
      obtain ⟨next, placed, bound⟩ := @exists_place layout code (by omega)
      obtain ⟨final, later⟩ := @ih others next (by rw [Line.references]; omega)
      refine ⟨final, ?_⟩
      rw [Line.statements_operation (Statement.ofLine?_operation code first)]
      refine Runs.foldlM_cons_eq_ok_iff.mpr ⟨next, ?_, later⟩
      rw [scan, Operation.ofText_render code first]
      exact placed

theorem exists_assemble {lines : List Line} (assemblable : Line.Assemblable lines) :
    ∃ image, assemble (lines.map Line.render) = .ok image := by
  obtain ⟨labels, first⟩ := @Labels.exists_run lines assemblable.legible assemblable.distinct {}
    assemblable.free (by simpa using assemblable.size)
  obtain ⟨layout, second⟩ := @Layout.exists_run lines assemblable.legible { symbols := labels.symbols }
    assemblable.references
  exact ⟨_, Runs.bind_eq_ok_iff.mpr ⟨labels, first, Runs.bind_eq_ok_iff.mpr ⟨layout, second, rfl⟩⟩⟩

end Image

private theorem Template.function_sparse (name : String) (locals : Word) : Line.Sparse (function name locals) := by
  apply @Line.Sparse.append [.label name] _ (Nat.le_refl 0)
  rw [← List.flatMap_id]
  apply Line.Sparse.flatMap
  intro push repeated
  rw [List.eq_of_mem_replicate repeated]
  exact Nat.le_of_ble_eq_true rfl

/-- In the code of a command every name that it refers to is followed by a computation. -/
theorem Site.code_sparse (site : Site) : Line.Sparse site.code := by
  obtain ⟨unit, function, number, command⟩ := site
  cases command with
  | arithmetic operator => cases operator <;> exact Nat.le_of_ble_eq_true rfl
  | push segment index => cases segment <;> exact Nat.le_of_ble_eq_true rfl
  | pop segment index => cases segment <;> exact Nat.le_of_ble_eq_true rfl
  | function name locals => exact Template.function_sparse name locals
  | label name => exact Nat.le_of_ble_eq_true rfl
  | goto name => exact Nat.le_of_ble_eq_true rfl
  | ifGoto name => exact Nat.le_of_ble_eq_true rfl
  | call name arguments => exact Nat.le_of_ble_eq_true rfl
  | ret => exact Nat.le_of_ble_eq_true rfl

private theorem Site.block_sparse (annotate : Bool) (site : Site) : Line.Sparse (site.block annotate) := by
  rw [block]
  split
  · exact @Line.Sparse.append [.comment _] _ (Nat.le_refl 0) site.code_sparse
  · exact site.code_sparse

private theorem Draft.start_sparse (draft : Draft) : Line.Sparse draft.start := by
  rw [start]
  split
  · rw [Generator.bootstrap]
    cases draft.generator.annotate <;> exact Nat.le_of_ble_eq_true rfl
  · exact Nat.le_refl 0

section Linked

variable {options : BuildOptions} {units : List SourceUnit} {lines : List Line}
  (solid : ∀ unit ∈ units, Text.Solid unit.name.toList) (named : ∀ unit ∈ units, unit.WellNamed)
  (entry : IsIdentifier options.entry) (linked : link options units = .ok lines)
  (few : Line.size lines ≤ 65535)
  (functions : ∀ name locals, .function name locals ∈ units.flatMap SourceUnit.commands →
    name ∉ Image.predefined)

include solid named entry linked few functions

/-- A linked program can be assembled. -/
theorem link_assemblable : Line.Assemblable lines := by
  have sites := Site.ofUnits_wellNamed solid named
  obtain ⟨draft, rfl, made, rfl⟩ := link_eq_ok linked
  have distinct := made.labels_distinct.1
  rw [draft.finish_lines] at distinct
  have sparse : Line.Sparse (draft.start ++ draft.code) := by
    rw [made.code]
    exact draft.start_sparse.append (.flatMap fun site _ => site.block_sparse _)
  refine ⟨?_, distinct, ?_, few, ?_⟩
  · rw [made.code, List.forall_mem_append, List.forall_mem_flatMap]
    refine ⟨?_, fun site member => (sites site member).block_legible _⟩
    intro line member
    rcases draft.start_legible line member with rfl | legible
    · exact entry.isSymbol
    · exact legible
  · intro name member
    rw [Std.TreeMap.getElem?_eq_none]
    intro known
    obtain ⟨locals, present⟩ := (link_predefined_iff linked known).mp member
    exact functions name locals present known
  · rw [Line.Sparse] at sparse
    rw [Image.firstVariable]
    omega

end Linked

/-- A program with room for its addresses, whose functions have names of their own, assembles, and its labels are
bound to their places. -/
theorem linkSources_assembles {options : BuildOptions} {sources : List (String × String)}
    {units : List SourceUnit} {lines : List Line}
    (solid : ∀ source ∈ sources, Text.Solid source.1.toList) (entry : IsIdentifier options.entry)
    (read : sources.mapM (fun (name, source) => SourceUnit.ofSource name source) = .ok units)
    (linked : linkSources options sources = .ok lines) (few : Line.size lines ≤ 65535)
    (functions : ∀ name locals, .function name locals ∈ units.flatMap SourceUnit.commands →
      name ∉ Image.predefined) :
    ∃ image, Image.assemble (lines.map Line.render) = .ok image ∧
      ∀ before name after, lines = before ++ .label name :: after →
        ∃ word, image.addressOf name = .ok word ∧ word.toNat = Line.size before := by
  have wellNamed := SourceUnit.ofSources_wellNamed read solid
  rw [linkSources, read] at linked
  have assemblable := link_assemblable (fun unit member => (wellNamed unit member).1)
    (fun unit member => (wellNamed unit member).2) entry linked few functions
  obtain ⟨image, assembled⟩ := Image.exists_assemble assemblable
  refine ⟨image, assembled, fun before name after whole => ?_⟩
  obtain ⟨word, bound, place⟩ :=
    Image.assemble_label assembled (fun line member => (assemblable.legible line member).fits) whole
  exact ⟨word, by rw [Image.addressOf, bound], place⟩

/-- A loop that the opening call leads to. -/
def loopSources : List (String × String) := [("Sys", "function Sys.init 0\nlabel END\ngoto END")]

/-- The label of the loop is bound to the number of instructions of the opening call. -/
theorem linkSources_assembles_loopSources :
    ∃ lines image, linkSources {} loopSources = .ok lines ∧ Image.assemble (lines.map Line.render) = .ok image ∧
      image.addressOf "Sys.init$END" = .ok 46 := by
  have solid : ∀ source ∈ loopSources, Text.Solid source.1.toList := by
    rw [loopSources, List.forall_mem_singleton]
    exact IsIdentifier.solid (by decide)
  obtain ⟨units, read, commands⟩ := @Runs.exists_of_any _ _
    (loopSources.mapM fun (name, source) => SourceUnit.ofSource name source)
    (fun units => units.flatMap SourceUnit.commands = [.function "Sys.init" 0, .label "END", .goto "END"])
    (by decide +kernel)
  have functions : ∀ name locals, .function name locals ∈ units.flatMap SourceUnit.commands →
      name ∉ Image.predefined := by
    rw [of_decide_eq_true commands]
    intro name locals member
    obtain ⟨rfl, -⟩ : name = "Sys.init" ∧ locals = 0 := by simpa using member
    exact @Image.not_mem_predefined_of_mark _ '.' (by decide) (by decide)
  obtain ⟨lines, linked, facts⟩ := @Runs.exists_of_any _ _ (linkSources {} loopSources)
    (fun lines => Line.size lines ≤ 65535 && lines[52]? = some (.label "Sys.init$END") &&
      Line.size (lines.take 52) = 46) (by decide +kernel)
  simp only [Bool.and_eq_true, decide_eq_true_eq] at facts
  obtain ⟨⟨few, here⟩, size⟩ := facts
  obtain ⟨image, assembled, labels⟩ := linkSources_assembles solid (by decide) read linked few functions
  obtain ⟨bound, here⟩ := List.getElem?_eq_some_iff.mp here
  obtain ⟨word, found, address⟩ := labels (lines.take 52) "Sys.init$END" (lines.drop 53)
    (by rw [← here, List.getElem_cons_drop, List.take_append_drop])
  obtain rfl : word = 46 := BitVec.eq_of_toNat_eq (address.trans size)
  exact ⟨lines, image, linked, assembled, found⟩

end HackVM
