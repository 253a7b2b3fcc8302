import HackVM.Machine.Image
import HackVM.Proofs.ReadBack
import HackVM.Proofs.Runs

/-! # What assembling gives

The first pass binds every label to the number of instructions before it. The second pass emits each
operation at that number and only ever adds names to the table, so every instruction agrees with the
final table. `Image.CodeAt` says that lines stand in an image from an address on; an image assembled
from lines holds each stretch of legible lines at its address.
-/

namespace HackVM

/-- One table binds all names that another binds, to the same addresses. -/
def SymbolTable.Extends (large small : SymbolTable) : Prop :=
  ∀ (name : String) (address : Word), small[name]? = some address → large[name]? = some address

theorem SymbolTable.Extends.refl (table : SymbolTable) : table.Extends table := fun _ _ bound => bound

theorem SymbolTable.Extends.trans {first second third : SymbolTable} (later : third.Extends second)
    (earlier : second.Extends first) : third.Extends first :=
  fun name address bound => later name address (earlier name address bound)

/-- Binding a name leaves the other names alone. -/
theorem SymbolTable.getElem?_insert_of_ne (table : SymbolTable) {name other : String} (differs : name ≠ other)
    (address : Word) : (table.insert name address)[other]? = table[other]? := by
  rw [Std.TreeMap.getElem?_insert, if_neg]
  rwa [Std.compare_eq_iff_eq]

private theorem SymbolTable.extends_insert {table : SymbolTable} {name : String} (address : Word)
    (fresh : table[name]? = none) : SymbolTable.Extends (table.insert name address) table := by
  intro other bound present
  rw [table.getElem?_insert_of_ne _ address, present]
  rintro rfl
  rw [fresh] at present
  contradiction

/-- The instruction of an operation whose operand has an address. -/
def Operation.resolve? (symbols : SymbolTable) : Operation → Option Instruction
  | number value => some (.load value)
  | symbol name => symbols[name]?.map .load
  | compute dest comp jump => some (.compute dest comp jump)

private theorem Operation.resolve?_mono {large small : SymbolTable} (larger : large.Extends small)
    {code : Operation} {instruction : Instruction} (resolved : code.resolve? small = some instruction) :
    code.resolve? large = some instruction := by
  cases code with
  | number value => exact resolved
  | compute dest comp jump => exact resolved
  | symbol name =>
    obtain ⟨address, bound, rfl⟩ := Option.map_eq_some_iff.mp resolved
    rw [resolve?, larger name address bound]
    rfl

/-- Whether a statement is a label. -/
def Statement.isLabel : Statement → Bool
  | label _ => true
  | unclosed | operation _ => false

/-- The number of statements that take an address. -/
def Statement.room (statements : List Statement) : Nat := statements.countP fun statement => !statement.isLabel

namespace Image

theorem successor?_eq_some_iff {number next : Nat} :
    successor? number = some next ↔ number + 1 < 65536 ∧ next = number + 1 := by
  rw [successor?]
  split <;> simp_all [eq_comm]

/-- A step of the first pass binds a free name or counts an address. -/
theorem Labels.scan_cases {labels next : Labels} {statement : Statement}
    (step : labels.scan statement = .ok next) :
    (∃ name, statement = .label name ∧ labels.symbols[name]? = none ∧
      next = { labels with symbols := labels.symbols.insert name (BitVec.ofNat 16 labels.count) }) ∨
    (statement.isLabel = false ∧ labels.count + 1 < 65536 ∧ next = { labels with count := labels.count + 1 }) := by
  cases statement with
  | label name =>
    simp only [scan] at step
    split_ifs at step with taken
    cases step
    refine .inl ⟨name, rfl, ?_, rfl⟩
    simpa using taken
  | unclosed | operation text =>
    simp only [scan] at step
    split at step
    · cases step
      obtain ⟨small, rfl⟩ := successor?_eq_some_iff.mp (by assumption)
      exact .inr ⟨rfl, small, rfl⟩
    · contradiction

private theorem Labels.scan_extends {labels next : Labels} {statement : Statement}
    (step : labels.scan statement = .ok next) : SymbolTable.Extends next.symbols labels.symbols := by
  obtain ⟨name, rfl, fresh, rfl⟩ | ⟨-, -, rfl⟩ := scan_cases step
  · exact SymbolTable.extends_insert _ fresh
  · exact .refl _

/-- The first pass keeps what the table holds, and counts the statements that take an address. -/
theorem Labels.run_count {statements : List Statement} {labels final : Labels}
    (small : labels.count < 65536) (success : statements.foldlM scan labels = .ok final) :
    SymbolTable.Extends final.symbols labels.symbols ∧
      final.count = labels.count + Statement.room statements ∧ final.count < 65536 := by
  refine Runs.foldlM_invariant success
    (fun before current => SymbolTable.Extends current.symbols labels.symbols ∧
      current.count = labels.count + Statement.room before ∧ current.count < 65536)
    ⟨.refl _, rfl, small⟩ ?_
  rintro before statement current next - ⟨keeps, count, bound⟩ step
  refine ⟨(scan_extends step).trans keeps, ?_⟩
  obtain ⟨name, rfl, -, rfl⟩ | ⟨other, room, rfl⟩ := scan_cases step
  · simpa [Statement.room, Statement.isLabel] using ⟨count, bound⟩
  · refine ⟨?_, room⟩
    simp only [Statement.room, List.countP_append, List.countP_singleton, other, Bool.not_false, ↓reduceIte]
    rw [count, Statement.room]
    omega

/-- A name that some label binds is not in the table before the first pass. -/
theorem Labels.unbound_of_run {statements : List Statement} {labels final : Labels} (small : labels.count < 65536)
    (success : statements.foldlM scan labels = .ok final) {name : String} (member : .label name ∈ statements) :
    labels.symbols[name]? = none := by
  obtain ⟨before, after, rfl⟩ := List.append_of_mem member
  obtain ⟨middle, first, rest⟩ := Runs.foldlM_append_eq_ok_iff.mp success
  obtain ⟨bound, step, -⟩ := Runs.foldlM_cons_eq_ok_iff.mp rest
  obtain ⟨other, same, fresh, -⟩ | ⟨isLabel, -⟩ := scan_cases step
  · cases same
    rw [Option.eq_none_iff_forall_ne_some] at fresh ⊢
    exact fun address present => fresh address ((run_count small first).1 name address present)
  · contradiction

/-- Every label is bound to the number of addresses taken before it. -/
theorem Labels.run_binds {before after : List Statement} {name : String} {labels final : Labels}
    (small : labels.count < 65536)
    (success : (before ++ .label name :: after).foldlM scan labels = .ok final) :
    ∃ address, final.symbols[name]? = some address ∧
      address.toNat = labels.count + Statement.room before := by
  obtain ⟨middle, first, rest⟩ := Runs.foldlM_append_eq_ok_iff.mp success
  obtain ⟨bound, step, last⟩ := Runs.foldlM_cons_eq_ok_iff.mp rest
  obtain ⟨-, count, fits⟩ := run_count small first
  refine ⟨BitVec.ofNat 16 middle.count, ?_, ?_⟩
  · obtain ⟨other, same, -, rfl⟩ | ⟨isLabel, -⟩ := scan_cases step
    · cases same
      exact (run_count (by exact fits) last).1 name _ (by simp)
    · contradiction
  · rw [BitVec.toNat_ofNat, Nat.mod_eq_of_lt fits, count]

/-- Placing an operation emits its instruction and keeps the table, up to one new name. -/
theorem Layout.place_spec {layout next : Layout} {code : Operation} (step : layout.place code = .ok next) :
    SymbolTable.Extends next.symbols layout.symbols ∧ ∃ instruction,
      code.resolve? next.symbols = some instruction ∧
      next.instructions = layout.instructions.push instruction := by
  cases code with
  | number value =>
    cases step
    exact ⟨.refl _, _, rfl, rfl⟩
  | compute dest comp jump =>
    cases step
    exact ⟨.refl _, _, rfl, rfl⟩
  | symbol name =>
    simp only [place] at step
    split at step
    · rename_i address bound
      cases step
      exact ⟨.refl _, _, by rw [emit, Operation.resolve?, bound]; rfl, rfl⟩
    · rename_i fresh
      split at step
      · cases step
        refine ⟨SymbolTable.extends_insert _ fresh, _, ?_, rfl⟩
        rw [Operation.resolve?, Std.TreeMap.getElem?_insert_self]
        rfl
      · contradiction

/-- A step of the second pass leaves a label out and places an operation. -/
theorem Layout.scan_cases {layout next : Layout} {statement : Statement}
    (step : layout.scan statement = .ok next) :
    (statement.isLabel = true ∧ next = layout) ∨ (statement = .unclosed ∧ next = layout) ∨
    ∃ text code, statement = .operation text ∧ Operation.ofText text = .ok code ∧
      layout.place code = .ok next := by
  cases statement with
  | label name =>
    cases step
    exact .inl ⟨rfl, rfl⟩
  | unclosed =>
    cases step
    exact .inr (.inl ⟨rfl, rfl⟩)
  | operation text =>
    obtain ⟨code, read, placed⟩ := Runs.bind_eq_ok_iff.mp step
    exact .inr (.inr ⟨text, code, rfl, read, placed⟩)

/-- The second pass keeps what the table holds. -/
theorem Layout.run_extends {statements : List Statement} {layout final : Layout}
    (success : statements.foldlM scan layout = .ok final) :
    SymbolTable.Extends final.symbols layout.symbols := by
  refine Runs.foldlM_invariant success (fun _ current => SymbolTable.Extends current.symbols layout.symbols)
    (.refl _) ?_
  rintro before statement current next - keeps step
  obtain ⟨-, rfl⟩ | ⟨-, rfl⟩ | ⟨text, code, -, -, placed⟩ := scan_cases step
  · exact keeps
  · exact keeps
  · exact (place_spec placed).1.trans keeps

/-- The second pass emits one instruction for each address taken, provided that no parenthesis is left
open. -/
theorem Layout.run_size {statements : List Statement} {layout final : Layout}
    (closed : ∀ statement ∈ statements, statement ≠ .unclosed)
    (success : statements.foldlM scan layout = .ok final) :
    ∃ emitted : Array Instruction, final.instructions = layout.instructions ++ emitted ∧
      emitted.size = Statement.room statements := by
  refine Runs.foldlM_invariant success
    (fun before current => ∃ emitted : Array Instruction, current.instructions = layout.instructions ++ emitted ∧
      emitted.size = Statement.room before)
    ⟨#[], by simp, rfl⟩ ?_
  rintro before statement current next member ⟨emitted, instructions, size⟩ step
  obtain ⟨isLabel, rfl⟩ | ⟨rfl, -⟩ | ⟨text, code, rfl, -, placed⟩ := scan_cases step
  · refine ⟨emitted, instructions, ?_⟩
    simpa [Statement.room, isLabel] using size
  · exact absurd rfl (closed _ member)
  · obtain ⟨-, instruction, -, pushed⟩ := place_spec placed
    refine ⟨emitted.push instruction, ?_, ?_⟩
    · rw [pushed, instructions, Array.push_append]
    · simpa [Statement.room, Statement.isLabel] using size

/-- Every operation is emitted at the number of addresses taken before it, as the final table has it. -/
theorem Layout.run_emits {before after : List Statement} {text : List Char} {layout final : Layout}
    (closed : ∀ statement ∈ before ++ .operation text :: after, statement ≠ .unclosed)
    (success : (before ++ .operation text :: after).foldlM scan layout = .ok final) :
    ∃ code instruction, Operation.ofText text = .ok code ∧
      code.resolve? final.symbols = some instruction ∧
      final.instructions[layout.instructions.size + Statement.room before]? = some instruction := by
  obtain ⟨middle, first, rest⟩ := Runs.foldlM_append_eq_ok_iff.mp success
  obtain ⟨bound, step, last⟩ := Runs.foldlM_cons_eq_ok_iff.mp rest
  obtain ⟨emitted, earlier, size⟩ :=
    run_size (fun statement member => closed statement (List.mem_append_left _ member)) first
  obtain ⟨others, later, -⟩ :=
    run_size (fun statement member => closed statement (by simp [member])) last
  obtain ⟨isLabel, -⟩ | ⟨same, -⟩ | ⟨text, code, same, read, placed⟩ := scan_cases step
  · contradiction
  · contradiction
  · cases same
    obtain ⟨-, instruction, resolved, pushed⟩ := place_spec placed
    refine ⟨code, instruction, read, Operation.resolve?_mono (run_extends last) resolved, ?_⟩
    have position : layout.instructions.size + Statement.room before = middle.instructions.size := by
      rw [earlier, Array.size_append, size]
    rw [later, pushed, position, Array.getElem?_append_left (by simp), Array.getElem?_push_size]

theorem ofStatements_eq_ok {statements : List Statement} {image : Image}
    (success : ofStatements statements = .ok image) :
    ∃ labels layout, statements.foldlM Labels.scan {} = .ok labels ∧
      statements.foldlM Layout.scan { symbols := labels.symbols } = .ok layout ∧
      image = ⟨layout.instructions, layout.symbols⟩ := by
  obtain ⟨labels, first, success⟩ := Runs.bind_eq_ok_iff.mp success
  obtain ⟨layout, second, success⟩ := Runs.bind_eq_ok_iff.mp success
  cases success
  exact ⟨labels, layout, first, second, rfl⟩

section Statements

variable {statements : List Statement} {image : Image} (success : ofStatements statements = .ok image)

include success

/-- Names that every program knows keep their addresses. -/
theorem ofStatements_predefined : image.symbols.Extends predefined := by
  obtain ⟨labels, layout, first, second, rfl⟩ := ofStatements_eq_ok success
  exact (Layout.run_extends second).trans (Labels.run_count (by decide) first).1

/-- An image holds one instruction for each address taken. -/
theorem ofStatements_size (closed : ∀ statement ∈ statements, statement ≠ .unclosed) :
    image.instructions.size = Statement.room statements := by
  obtain ⟨labels, layout, first, second, rfl⟩ := ofStatements_eq_ok success
  obtain ⟨emitted, instructions, size⟩ := Layout.run_size closed second
  rw [← size]
  simp [instructions]

theorem ofStatements_label {before after : List Statement} {name : String}
    (whole : statements = before ++ .label name :: after) :
    ∃ word, image.symbols[name]? = some word ∧ word.toNat = Statement.room before := by
  obtain ⟨labels, layout, first, second, rfl⟩ := ofStatements_eq_ok success
  rw [whole] at first
  obtain ⟨word, bound, value⟩ := Labels.run_binds (by decide) first
  exact ⟨word, Layout.run_extends second name word bound, by rw [value, Nat.zero_add]⟩

theorem ofStatements_operation (closed : ∀ statement ∈ statements, statement ≠ .unclosed)
    {before after : List Statement} {text : List Char} (whole : statements = before ++ .operation text :: after) :
    ∃ code instruction, Operation.ofText text = .ok code ∧ code.resolve? image.symbols = some instruction ∧
      image.instructions[Statement.room before]? = some instruction := by
  obtain ⟨labels, layout, first, second, rfl⟩ := ofStatements_eq_ok success
  rw [whole] at second closed
  obtain ⟨code, instruction, read, resolved, emitted⟩ := Layout.run_emits closed second
  exact ⟨code, instruction, read, resolved, by simpa using emitted⟩

end Statements

end Image

namespace Line

/-- Whether a line is an operation. -/
def isOperation : Line → Bool
  | operation _ => true
  | comment _ | label _ => false

/-- The number of instructions among lines. -/
def size (lines : List Line) : Nat := lines.countP isOperation

@[simp] theorem size_nil : size [] = 0 := rfl

@[simp] theorem size_comment (text : String) (rest : List Line) : size (comment text :: rest) = size rest :=
  List.countP_cons_of_neg Bool.false_ne_true

@[simp] theorem size_label (name : String) (rest : List Line) : size (label name :: rest) = size rest :=
  List.countP_cons_of_neg Bool.false_ne_true

@[simp] theorem size_operation (code : Operation) (rest : List Line) :
    size (operation code :: rest) = size rest + 1 :=
  List.countP_cons_of_pos rfl

@[simp] theorem size_append (first second : List Line) : size (first ++ second) = size first + size second :=
  List.countP_append

/-- A line whose text takes the room that the line should take. -/
def Fits : Line → Prop
  | comment _ => True
  | label name => Text.Solid name.toList
  | operation code => ∃ text, Statement.ofLine? (operation code).render = some (.operation text)

/-- A line whose text reads as the line. -/
def Legible : Line → Prop
  | comment _ => True
  | label name => Text.Solid name.toList
  | operation code => code.Legible

theorem Legible.fits {line : Line} (legible : line.Legible) : line.Fits := by
  cases line with
  | comment text => trivial
  | label name => exact legible
  | operation code => exact ⟨_, Statement.ofLine?_operation code legible⟩

theorem fits_symbol (name : String) : (symbol name).Fits := Statement.ofLine?_symbol name

/-- The statements that the assembler reads from lines. -/
def statements (lines : List Line) : List Statement := (lines.map render).filterMap Statement.ofLine?

private theorem statements_append (first second : List Line) :
    statements (first ++ second) = statements first ++ statements second := by
  simp [statements]

theorem statements_comment (text : String) (rest : List Line) :
    statements (comment text :: rest) = statements rest := by
  simp [statements, Statement.ofLine?_comment]

theorem statements_label {name : String} (solid : Text.Solid name.toList) (rest : List Line) :
    statements (label name :: rest) = .label name :: statements rest := by
  simp [statements, Statement.ofLine?_label solid]

theorem statements_operation {code : Operation} {text : List Char}
    (read : Statement.ofLine? (operation code).render = some (.operation text)) (rest : List Line) :
    statements (operation code :: rest) = .operation text :: statements rest := by
  simp [statements, read]

/-- Lines that fit take as many addresses as they hold instructions, and leave no parenthesis open. -/
theorem room_statements {lines : List Line} (fits : ∀ line ∈ lines, line.Fits) :
    Statement.room (statements lines) = size lines ∧
      ∀ statement ∈ statements lines, statement ≠ .unclosed := by
  induction lines with
  | nil => exact ⟨rfl, by simp [statements]⟩
  | cons line rest ih =>
    obtain ⟨room, closed⟩ := ih fun other member => fits other (List.mem_cons_of_mem _ member)
    have fit := fits line (List.mem_cons_self ..)
    cases line with
    | comment text =>
      rw [statements_comment]
      exact ⟨by simpa using room, closed⟩
    | label name =>
      rw [statements_label fit]
      constructor
      · simpa [Statement.room, Statement.isLabel] using room
      · simpa using closed
    | operation code =>
      obtain ⟨text, read⟩ := fit
      rw [statements_operation read]
      constructor
      · simpa [Statement.room, Statement.isLabel] using room
      · simpa using closed

end Line

namespace Image

/-- Lines stand in an image from an address on: labels are bound where they stand, and operations are
resolved by the image's own table. -/
def CodeAt (image : Image) : Nat → List Line → Prop
  | _, [] => True
  | address, .comment _ :: rest => image.CodeAt address rest
  | address, .label name :: rest =>
    (∃ word, image.symbols[name]? = some word ∧ word.toNat = address) ∧ image.CodeAt address rest
  | address, .operation code :: rest =>
    (∃ instruction, code.resolve? image.symbols = some instruction ∧
      image.instructions[address]? = some instruction) ∧ image.CodeAt (address + 1) rest

theorem codeAt_append {image : Image} {address : Nat} {first second : List Line} :
    image.CodeAt address (first ++ second) ↔
      image.CodeAt address first ∧ image.CodeAt (address + Line.size first) second := by
  induction first generalizing address with
  | nil => simp [CodeAt]
  | cons line rest ih =>
    cases line with
    | comment text => simpa [CodeAt] using ih
    | label name => simp [CodeAt, ih, and_assoc]
    | operation code => simp [CodeAt, ih, and_assoc, Nat.add_assoc, Nat.add_comm 1]

section Assembled

variable {lines : List Line} {image : Image} (assembled : assemble (lines.map Line.render) = .ok image)

include assembled

/-- Names that every program knows keep their addresses. -/
theorem assemble_predefined : image.symbols.Extends predefined := ofStatements_predefined assembled

/-- An image holds one instruction for each operation. -/
theorem assemble_size (fits : ∀ line ∈ lines, line.Fits) : image.instructions.size = Line.size lines := by
  obtain ⟨room, closed⟩ := Line.room_statements fits
  rw [← room]
  exact ofStatements_size assembled closed

theorem assemble_label (fits : ∀ line ∈ lines, line.Fits) {before after : List Line} {name : String}
    (whole : lines = before ++ .label name :: after) :
    ∃ word, image.symbols[name]? = some word ∧ word.toNat = Line.size before := by
  have solid : Text.Solid name.toList := fits (.label name) (by simp [whole])
  have earlier : ∀ line ∈ before, line.Fits := fun line member => fits line (by simp [whole, member])
  rw [← (Line.room_statements earlier).1]
  refine @ofStatements_label _ _ assembled (Line.statements before) (Line.statements after) name ?_
  rw [← Line.statements_label solid, ← Line.statements_append, ← whole]
  rfl

private theorem assemble_operation (fits : ∀ line ∈ lines, line.Fits) {before after : List Line} {code : Operation}
    (whole : lines = before ++ .operation code :: after) (legible : code.Legible) :
    ∃ instruction, code.resolve? image.symbols = some instruction ∧
      image.instructions[Line.size before]? = some instruction := by
  have earlier : ∀ line ∈ before, line.Fits := fun line member => fits line (by simp [whole, member])
  have split : Line.statements lines =
      Line.statements before ++ .operation code.render.toList :: Line.statements after := by
    rw [whole, Line.statements_append, Line.statements_operation (Statement.ofLine?_operation code legible)]
  obtain ⟨other, instruction, read, resolved, emitted⟩ :=
    ofStatements_operation assembled (Line.room_statements fits).2 split
  rw [Operation.ofText_render code legible] at read
  cases read
  rw [(Line.room_statements earlier).1] at emitted
  exact ⟨instruction, resolved, emitted⟩

/-- An image assembled from lines holds every stretch of legible lines at its address. -/
theorem assemble_codeAt (fits : ∀ line ∈ lines, line.Fits) {before block after : List Line}
    (whole : lines = before ++ block ++ after) (legible : ∀ line ∈ block, line.Legible) :
    image.CodeAt (Line.size before) block := by
  induction block generalizing before with
  | nil => trivial
  | cons line rest ih =>
    have later := @ih (before ++ [line]) (by simp [whole])
      fun other member => legible other (List.mem_cons_of_mem _ member)
    have here : lines = before ++ line :: (rest ++ after) := by simp [whole]
    cases line with
    | comment text => simpa [CodeAt] using later
    | label name =>
      refine ⟨assemble_label assembled fits here, ?_⟩
      simpa using later
    | operation code =>
      refine ⟨assemble_operation assembled fits here (legible _ (List.mem_cons_self ..)), ?_⟩
      simpa using later

end Assembled

end Image

end HackVM
