import Mathlib.Data.List.Induction
import HackVM.Proofs.Sites

/-! # The cells of variables

A name that a program refers to and that is neither predefined nor a label is a variable. The second pass of
the assembler gives it the next free cell when it meets the name for the first time. So the cells of variables
follow each other in the order of first references, over the whole program, and the cell of a variable tells
how many variables were met before it.
-/

namespace HackVM

namespace Statement

/-- The name that a statement refers to. -/
def reference? : Statement → Option String
  | operation text =>
    match Operation.ofText text with
    | .ok (.symbol name) => some name
    | _ => none
  | label _ | unclosed => none

/-- The names that statements refer to and that are not known, each once, in the order of first references. -/
def unknowns (known : String → Bool) (statements : List Statement) : List String :=
  ((statements.filterMap reference?).filter fun name => !known name).eraseDups

/-- The names that statements refer to and that are neither predefined nor labels of theirs, each once, in the
order of first references. -/
def variableNames (statements : List Statement) : List String :=
  unknowns (fun name => Image.predefined.contains name || statements.contains (.label name)) statements

section Unknowns

variable {known : String → Bool} {before : List Statement} {statement : Statement} {name : String}

theorem mem_unknowns_iff {statements : List Statement} :
    name ∈ unknowns known statements ↔ name ∈ statements.filterMap reference? ∧ known name = false := by
  rw [unknowns, List.mem_eraseDups, List.mem_filter, Bool.not_eq_true']

private theorem unknowns_concat_of_none (none : statement.reference? = none) :
    unknowns known (before ++ [statement]) = unknowns known before := by
  simp [unknowns, none]

/-- A further reference to a name that is known or was met before adds nothing. -/
theorem unknowns_concat_of_old (refers : statement.reference? = some name)
    (old : known name = true ∨ name ∈ unknowns known before) :
    unknowns known (before ++ [statement]) = unknowns known before := by
  rw [unknowns, List.filterMap_append, List.filterMap_cons, refers, List.filter_append, List.eraseDups_append]
  by_cases knows : known name = true
  · simp [unknowns, knows]
  · have met : name ∈ (before.filterMap reference?).filter fun name => !known name :=
      List.mem_eraseDups.mp (old.resolve_left knows)
    rw [List.filter_cons_of_pos (by simpa using knows), List.filterMap_nil, List.filter_nil,
      List.cons_removeAll, if_neg (by simp [met])]
    simp [unknowns]

/-- The first reference to a name that is not known puts the name at the end. -/
theorem unknowns_concat_of_new (refers : statement.reference? = some name) (unknown : known name = false)
    (new : name ∉ unknowns known before) :
    unknowns known (before ++ [statement]) = unknowns known before ++ [name] := by
  have unmet : name ∉ (before.filterMap reference?).filter fun name => !known name :=
    fun met => new (List.mem_eraseDups.mpr met)
  rw [unknowns, List.filterMap_append, List.filterMap_cons, refers, List.filter_append, List.eraseDups_append,
    List.filter_cons_of_pos (by simpa using unknown), List.filterMap_nil, List.filter_nil,
    List.cons_removeAll, if_pos (by simpa using unmet)]
  simp [unknowns, List.eraseDups_cons]

end Unknowns

private theorem unknowns_nodup (known : String → Bool) (statements : List Statement) :
    (unknowns known statements).Nodup := by
  induction statements using List.reverseRecOn with
  | nil => simp [unknowns]
  | append_singleton before statement ih =>
    cases refers : statement.reference? with
    | none => rwa [unknowns_concat_of_none refers]
    | some name =>
      by_cases old : known name = true ∨ name ∈ unknowns known before
      · rwa [unknowns_concat_of_old refers old]
      · rw [not_or, Bool.not_eq_true] at old
        rw [unknowns_concat_of_new refers old.1 old.2]
        exact ih.append (List.nodup_singleton name) (List.disjoint_singleton.mpr old.2)

theorem variableNames_nodup (statements : List Statement) : (variableNames statements).Nodup := unknowns_nodup _ _

end Statement

namespace Image

/-- The first pass knows the names that it knew at the start and the labels. -/
theorem Labels.run_contains {statements : List Statement} {labels final : Labels}
    (success : statements.foldlM scan labels = .ok final) (name : String) :
    final.symbols.contains name = (labels.symbols.contains name || statements.contains (.label name)) := by
  refine Runs.foldlM_invariant success
    (fun before current =>
      current.symbols.contains name = (labels.symbols.contains name || before.contains (.label name)))
    (by simp) ?_
  rintro before statement current next - knows step
  obtain ⟨own, rfl, -, rfl⟩ | ⟨other, -, rfl⟩ := scan_cases step
  · rw [Std.TreeMap.contains_insert, knows]
    by_cases same : own = name
    · simp [same]
    · simp [same, Ne.symm same, Bool.or_comm]
  · have differs : statement ≠ .label name := by
      rintro rfl
      contradiction
    simp [knows, Ne.symm differs]

/-- The table of the second pass: what was known before it, and the variables that it met, whose cells follow
each other. -/
structure Layout.Allots (layout : Layout) (known : SymbolTable) (names : List String) : Prop where
  next : layout.nextVariable = firstVariable + names.length
  room : layout.nextVariable < 65536
  cells : ∀ name ∈ names, layout.symbols[name]? = some (BitVec.ofNat 16 (firstVariable + names.idxOf name))
  others : ∀ name, name ∉ names → layout.symbols[name]? = known[name]?

namespace Layout

/-- An unknown name takes the next cell. -/
theorem Allots.insert {layout : Layout} {known : SymbolTable} {names : List String}
    (allots : layout.Allots known names) {name : String} (fresh : layout.symbols[name]? = none)
    (room : layout.nextVariable + 1 < 65536) (instructions : Array Instruction) :
    Allots
      { instructions
        symbols := layout.symbols.insert name (BitVec.ofNat 16 layout.nextVariable)
        nextVariable := layout.nextVariable + 1 } known (names ++ [name]) := by
  have new : name ∉ names := by
    intro met
    rw [allots.cells name met] at fresh
    contradiction
  refine ⟨?_, room, ?_, ?_⟩
  · simp [allots.next, Nat.add_assoc]
  · intro other met
    by_cases same : name = other
    · rw [← same, Std.TreeMap.getElem?_insert_self, List.idxOf_append, if_neg new, List.idxOf_cons_self,
        Nat.zero_add, allots.next]
    · have early : other ∈ names := by
        rcases List.mem_append.mp met with early | here
        · exact early
        · exact absurd (List.mem_singleton.mp here).symm same
      rw [layout.symbols.getElem?_insert_of_ne same, allots.cells other early, List.idxOf_append, if_pos early]
  · intro other unmet
    rw [List.mem_append, List.mem_singleton, not_or] at unmet
    rw [layout.symbols.getElem?_insert_of_ne (Ne.symm unmet.2), allots.others other unmet.1]

/-- A step of the second pass gives a cell to a name exactly when it is the first reference to it and the name
was not known before. -/
theorem scan_allots {layout next : Layout} {known : SymbolTable} {before : List Statement} {statement : Statement}
    (allots : layout.Allots known (Statement.unknowns (known.contains ·) before))
    (step : layout.scan statement = .ok next) :
    next.Allots known (Statement.unknowns (known.contains ·) (before ++ [statement])) := by
  obtain ⟨isLabel, rfl⟩ | ⟨rfl, rfl⟩ | ⟨text, code, rfl, read, placed⟩ := scan_cases step
  · have none : statement.reference? = none := by
      cases statement with
      | label name => rfl
      | unclosed | operation text => contradiction
    rwa [Statement.unknowns_concat_of_none none]
  · rwa [Statement.unknowns_concat_of_none rfl]
  · cases code with
    | number value | compute dest comp jump =>
      cases placed
      rw [Statement.unknowns_concat_of_none (by simp [Statement.reference?, read])]
      exact ⟨allots.next, allots.room, allots.cells, allots.others⟩
    | symbol name =>
      have refers : (Statement.operation text).reference? = some name := by simp [Statement.reference?, read]
      simp only [place] at placed
      split at placed
      · rename_i address bound
        cases placed
        have old : known.contains name = true ∨ name ∈ Statement.unknowns (known.contains ·) before := by
          by_cases met : name ∈ Statement.unknowns (known.contains ·) before
          · exact .inr met
          · rw [allots.others name met] at bound
            rw [Std.TreeMap.contains_eq_isSome_getElem?, bound]
            exact .inl rfl
        rw [Statement.unknowns_concat_of_old refers old]
        exact ⟨allots.next, allots.room, allots.cells, allots.others⟩
      · rename_i fresh
        split at placed
        · rename_i count counted
          obtain ⟨room, rfl⟩ := successor?_eq_some_iff.mp counted
          cases placed
          have new : name ∉ Statement.unknowns (known.contains ·) before := by
            intro met
            rw [allots.cells name met] at fresh
            contradiction
          have unknown : known.contains name = false := by
            rw [Std.TreeMap.contains_eq_isSome_getElem?, ← allots.others name new, fresh]
            rfl
          rw [Statement.unknowns_concat_of_new refers unknown new]
          exact allots.insert fresh room _
        · contradiction

/-- The second pass gives cells to the names that are not known before it. -/
theorem run_allots {statements : List Statement} {known : SymbolTable} {final : Layout}
    (success : statements.foldlM scan { symbols := known } = .ok final) :
    final.Allots known (Statement.unknowns (known.contains ·) statements) := by
  refine Runs.foldlM_invariant success
    (fun before current => current.Allots known (Statement.unknowns (known.contains ·) before)) ?_ ?_
  · exact ⟨rfl, by simp [firstVariable], by simp [Statement.unknowns], fun _ _ => rfl⟩
  · exact fun before statement current next _ allots step => scan_allots allots step

end Layout

section Statements

variable {statements : List Statement} {image : Image} (success : ofStatements statements = .ok image)

include success

/-- The second pass gives cells to the variables of a program. -/
theorem ofStatements_allots :
    ∃ (labels : Labels) (layout : Layout), statements.foldlM Labels.scan {} = .ok labels ∧
      image.symbols = layout.symbols ∧ layout.Allots labels.symbols (Statement.variableNames statements) := by
  obtain ⟨labels, layout, first, second, rfl⟩ := ofStatements_eq_ok success
  have known : (labels.symbols.contains ·) =
      fun name => predefined.contains name || statements.contains (.label name) :=
    funext (Labels.run_contains first)
  have allots := Layout.run_allots second
  rw [known, ← Statement.variableNames] at allots
  exact ⟨labels, layout, first, rfl, allots⟩

/-- The cells of variables follow each other in the order of first references. -/
theorem ofStatements_variable {name : String} (unknown : name ∈ Statement.variableNames statements) :
    ∃ address, image.symbols[name]? = some address ∧
      address.toNat = firstVariable + (Statement.variableNames statements).idxOf name := by
  obtain ⟨labels, layout, -, symbols, allots⟩ := ofStatements_allots success
  rw [symbols]
  refine ⟨_, allots.cells name unknown, ?_⟩
  have early := List.idxOf_lt_length_of_mem unknown
  have room := allots.room
  rw [allots.next] at room
  rw [BitVec.toNat_ofNat]
  omega

/-- The names that have addresses are predefined, or labels, or variables. -/
theorem ofStatements_bound {name : String} {address : Word} (bound : image.symbols[name]? = some address) :
    name ∈ predefined ∨ .label name ∈ statements ∨ name ∈ Statement.variableNames statements := by
  obtain ⟨labels, layout, first, symbols, allots⟩ := ofStatements_allots success
  rw [symbols] at bound
  by_cases met : name ∈ Statement.variableNames statements
  · exact .inr (.inr met)
  · rw [allots.others name met] at bound
    have known := Labels.run_contains first name
    rw [Std.TreeMap.contains_eq_isSome_getElem?, bound, Option.isSome_some, eq_comm, Bool.or_eq_true,
      List.contains_iff_mem] at known
    exact known.imp_right .inl

end Statements

end Image

namespace Line

/-- The name that a line refers to. -/
def symbol? : Line → Option String
  | operation (.symbol name) => some name
  | operation (.number _) | operation (.compute ..) | comment _ | label _ => none

/-- The names that lines refer to, in order. -/
def symbols (lines : List Line) : List String := lines.filterMap symbol?

theorem symbols_append (first second : List Line) : symbols (first ++ second) = symbols first ++ symbols second :=
  List.filterMap_append

end Line

namespace Statement

/-- A legible operation is read as the reference that it is. -/
theorem reference?_render {code : Operation} (legible : code.Legible) :
    (operation code.render.toList).reference? = (Line.operation code).symbol? := by
  rw [reference?, Operation.ofText_render code legible]
  cases code <;> rfl

/-- A reference to a solid name is read as that reference, or as a number. -/
theorem reference?_of_solid {name : String} (solid : Text.Solid name.toList) :
    ∃ statement, ofLine? (Line.symbol name).render = some statement ∧
      ∀ other ∈ statement.reference?, other = name := by
  cases digits : name.toList.all Char.isDigit with
  | false =>
    have legible : (Operation.symbol name).Legible := ⟨solid, digits⟩
    refine ⟨_, ofLine?_operation _ legible, ?_⟩
    rw [reference?_render legible]
    simp [Line.symbol?]
  | true =>
    have text : (Line.symbol name).render.toList = ['@'] ++ name.toList := by
      simp [Line.symbol, Line.render, Operation.render]
    have whole : Text.Solid (['@'] ++ name.toList) :=
      (Text.Solid.of_forall (by decide)).append solid (.inl (by simp))
    refine ⟨operation ('@' :: name.toList), ?_, ?_⟩
    · rw [ofLine?, text, whole.read_eq]
      exact ofText?_operation (by simp) (by simp)
    · rw [reference?, Operation.ofText, if_pos digits]
      cases Word.ofDigits? name.toList <;> simp

end Statement

namespace Line

variable {lines : List Line} {name : String}

/-- A line that refers to a symbol is read as that reference. -/
theorem mem_references (member : symbol name ∈ lines) (named : IsSymbol name) :
    name ∈ (statements lines).filterMap Statement.reference? := by
  have legible : (Operation.symbol name).Legible := named
  have read := Statement.ofLine?_operation _ legible
  refine List.mem_filterMap.mpr ⟨_, List.mem_filterMap.mpr ⟨_, List.mem_map_of_mem member, read⟩, ?_⟩
  exact Statement.reference?_render legible

variable (fits : ∀ line ∈ lines, line.Fits)

include fits

theorem solid_of_mem_labels (defined : name ∈ labels lines) : Text.Solid name.toList := by
  obtain ⟨line, member, label⟩ := List.mem_filterMap.mp defined
  cases line with
  | label own =>
    cases label
    exact fits _ member
  | comment | operation => contradiction

/-- Lines that fit are read as the labels that they are. -/
theorem mem_labels_of_statement (member : .label name ∈ statements lines) : name ∈ labels lines := by
  obtain ⟨text, rendered, read⟩ := List.mem_filterMap.mp member
  obtain ⟨line, present, rfl⟩ := List.mem_map.mp rendered
  have fit := fits line present
  cases line with
  | comment text =>
    rw [Statement.ofLine?_comment] at read
    contradiction
  | label own =>
    rw [Statement.ofLine?_label fit] at read
    cases read
    exact List.mem_filterMap.mpr ⟨_, present, rfl⟩
  | operation code =>
    obtain ⟨text, operation⟩ := fit
    rw [operation] at read
    cases read

/-- Lines that fit, and refer to solid names, are read as references to no other names. -/
theorem mem_symbols_of_reference (solid : ∀ name ∈ symbols lines, Text.Solid name.toList)
    (refers : name ∈ (statements lines).filterMap Statement.reference?) : name ∈ symbols lines := by
  obtain ⟨statement, member, reference⟩ := List.mem_filterMap.mp refers
  obtain ⟨text, rendered, read⟩ := List.mem_filterMap.mp member
  obtain ⟨line, present, rfl⟩ := List.mem_map.mp rendered
  cases line with
  | comment text =>
    rw [Statement.ofLine?_comment] at read
    contradiction
  | label own =>
    have fit : Text.Solid own.toList := fits _ present
    rw [Statement.ofLine?_label fit] at read
    cases read
    contradiction
  | operation code =>
    have plain : code.Legible ∨ ∃ own, code = .symbol own := by
      cases code with
      | symbol own => exact .inr ⟨own, rfl⟩
      | number | compute => exact .inl trivial
    obtain legible | ⟨own, rfl⟩ := plain
    · rw [Statement.ofLine?_operation code legible] at read
      cases read
      rw [Statement.reference?_render legible] at reference
      exact List.mem_filterMap.mpr ⟨_, present, reference⟩
    · have here : own ∈ symbols lines := List.mem_filterMap.mpr ⟨_, present, rfl⟩
      obtain ⟨found, reading, only⟩ := Statement.reference?_of_solid (solid own here)
      cases reading.symm.trans read
      rw [only name reference]
      exact here

end Line

end HackVM
