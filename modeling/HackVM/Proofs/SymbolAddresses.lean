import HackVM.Machine.Run
import HackVM.Proofs.UniqueLabels
import HackVM.Proofs.Variables

/-! # The addresses of symbols in any text

What the assembler makes of a text depends on what is left of each line without its comment and its blanks. A text
in parentheses is a label, and every other text takes an address, so both passes count alike as long as every
parenthesis that opens a text is closed at its end. A label is bound to the address of the next instruction. A name
behind `@` is predefined, a label somewhere in the text, or a variable, and each reference to it loads the same
address. The cells of variables follow each other in the order of first references.
-/

namespace HackVM

namespace Text

/-- What is left of a line of assembly without its comment and its blanks. -/
def residue (line : String) : String := String.ofList ((stripComment line.toList).filter fun c => !isBlank c)

/-- What is left of lines of assembly, where anything is left. -/
def residues (lines : List String) : List String := (lines.map residue).filter fun text => text ≠ ""

/-- The number of texts that take an address: all but labels. -/
def addresses (texts : List String) : Nat := texts.countP fun text => !opensLabel text

/-- The name that a text refers to: what follows `@`, unless it is a number. -/
def reference? (text : String) : Option String :=
  match text.toList with
  | '@' :: name => if name.all Char.isDigit then none else some (String.ofList name)
  | _ => none

/-- The names that texts refer to and that are neither predefined nor labels among them, each once, in the order of
first references. -/
def variableNames (texts : List String) : List String :=
  ((texts.filterMap reference?).filter fun name =>
    !(Image.predefined.contains name || texts.contains ("(" ++ name ++ ")"))).eraseDups

/-- A text that opens a parenthesis closes one at its end. -/
def Closed (text : String) : Prop := opensLabel text = true → text.toList.getLast? = some ')'

instance (text : String) : Decidable (Closed text) :=
  inferInstanceAs (Decidable (opensLabel text = true → text.toList.getLast? = some ')'))

end Text

namespace Statement

/-- What is left of a line, as a statement. -/
def ofResidue (text : String) : Statement := (ofText? text.toList).getD .unclosed

/-- The assembler reads a statement from each line of which something is left. -/
theorem filterMap_ofLine? (lines : List String) :
    lines.filterMap ofLine? = (Text.residues lines).map ofResidue := by
  induction lines with
  | nil => rfl
  | cons line rest ih =>
    have read : ofLine? line = ofText? (Text.residue line).toList := by simp [ofLine?, Text.residue]
    rw [List.filterMap_cons, read, Text.residues, List.map_cons, List.filter_cons, ih, ← Text.residues]
    cases text : (Text.residue line).toList with
    | nil =>
      rw [String.toList_eq_nil_iff] at text
      simp [text, ofText?]
    | cons c tail =>
      have something : Text.residue line ≠ "" := by
        intro nothing
        rw [nothing] at text
        contradiction
      obtain ⟨statement, reading⟩ : ∃ statement, ofText? (c :: tail) = some statement := by
        by_cases opens : c = '('
        · exact ⟨_, by rw [opens, ofText?]⟩
        · exact ⟨_, ofText?_operation (by simp) (by simpa using opens)⟩
      simp [something, reading, ofResidue, text]

/-- A text is read as the label in its parentheses, or it leaves a parenthesis open, or it is read as an operation. -/
theorem ofResidue_cases (text : String) :
    (∃ name, text = "(" ++ name ++ ")" ∧ ofResidue text = label name) ∨ ofResidue text = unclosed ∨
      ofResidue text = operation text.toList := by
  cases chars : text.toList with
  | nil => exact .inr (.inl (by simp [ofResidue, chars, ofText?]))
  | cons c rest =>
    by_cases opens : c = '('
    · by_cases closes : rest.getLast? = some ')'
      · obtain ⟨inner, rfl⟩ := List.getLast?_eq_some_iff.mp closes
        refine .inl ⟨String.ofList inner, ?_, ?_⟩
        · rw [← String.toList_inj, chars, opens]
          simp
        · simp [ofResidue, chars, opens, ofText?]
      · exact .inr (.inl (by simp [ofResidue, chars, opens, ofText?, closes]))
    · right; right
      rw [ofResidue, chars, ofText?_operation (by simp) (by simpa using opens), Option.getD_some]

private theorem ofResidue_label (name : String) : ofResidue ("(" ++ name ++ ")") = label name := by
  simp [ofResidue, ofText?]

/-- A text is read as a label iff it is a name in parentheses. -/
theorem ofResidue_eq_label_iff {text name : String} : ofResidue text = label name ↔ text = "(" ++ name ++ ")" := by
  constructor
  · intro read
    obtain ⟨own, rfl, same⟩ | unclosed | operation := ofResidue_cases text
    · cases same.symm.trans read
      rfl
    · cases unclosed.symm.trans read
    · cases operation.symm.trans read
  · rintro rfl
    exact ofResidue_label name

private theorem ofResidue_operation {text : String} (other : Text.opensLabel text = false) (something : text ≠ "") :
    ofResidue text = operation text.toList := by
  rw [Text.opensLabel, beq_eq_false_iff_ne] at other
  rw [ofResidue, ofText?_operation (by simpa using something) other, Option.getD_some]

end Statement

namespace Operation

/-- No computation is a reference. -/
theorem readCompute_ne_symbol (text : List Char) (name : String) : readCompute text ≠ .ok (.symbol name) := by
  intro read
  obtain ⟨jump, -, read⟩ := Runs.bind_eq_ok_iff.mp read
  split at read <;> cases read

/-- A text is read as a reference iff it is a name behind `@` that is not a number. -/
theorem ofText_eq_symbol_iff {text : List Char} {name : String} :
    ofText text = .ok (.symbol name) ↔ text = '@' :: name.toList ∧ name.toList.all Char.isDigit = false := by
  constructor
  · intro read
    rw [ofText.eq_def] at read
    split at read
    · split_ifs at read with digits
      · split at read <;> cases read
      · cases read
        simpa using digits
    · exact absurd read (readCompute_ne_symbol _ name)
  · rintro ⟨rfl, digits⟩
    simp [ofText, digits]

end Operation

namespace Text

private theorem reference?_eq_some_iff {text name : String} :
    reference? text = some name ↔ text = "@" ++ name ∧ name.toList.all Char.isDigit = false := by
  constructor
  · intro refers
    rw [reference?] at refers
    split at refers
    · rename_i own chars
      split_ifs at refers with digits
      cases refers
      refine ⟨?_, by simpa using digits⟩
      rw [← String.toList_inj, chars]
      simp
    · contradiction
  · rintro ⟨rfl, digits⟩
    simp [reference?, digits]

/-- A closed text that opens a parenthesis is a name in parentheses. -/
theorem Closed.exists_name {text : String} (closed : Closed text) (opens : opensLabel text = true) :
    ∃ name, text = "(" ++ name ++ ")" := by
  obtain ⟨inner, chars⟩ := List.getLast?_eq_some_iff.mp (closed opens)
  rw [opensLabel, beq_iff_eq, chars] at opens
  cases inner with
  | nil => contradiction
  | cons c rest =>
    cases opens
    refine ⟨String.ofList rest, ?_⟩
    rw [← String.toList_inj, chars]
    simp

end Text

namespace Statement

/-- A text is read as the reference that it is. -/
theorem reference?_ofResidue (text : String) : (ofResidue text).reference? = Text.reference? text := by
  apply Option.ext
  intro name
  rw [Text.reference?_eq_some_iff]
  constructor
  · intro refers
    obtain ⟨own, -, read⟩ | read | read := ofResidue_cases text <;> rw [read] at refers
    · contradiction
    · contradiction
    · rw [reference?] at refers
      split at refers
      · rename_i symbol
        cases refers
        obtain ⟨chars, digits⟩ := Operation.ofText_eq_symbol_iff.mp symbol
        refine ⟨?_, digits⟩
        rw [← String.toList_inj, chars]
        simp
      · contradiction
  · rintro ⟨rfl, digits⟩
    have other : Text.opensLabel ("@" ++ name) = false := by simp [Text.opensLabel]
    have read : Operation.ofText ("@" ++ name).toList = .ok (.symbol name) :=
      Operation.ofText_eq_symbol_iff.mpr ⟨by simp, digits⟩
    rw [ofResidue_operation other (by simp [← String.toList_inj]), reference?, read]

section Closed

variable {texts : List String} (closed : ∀ text ∈ texts, Text.Closed text) (something : "" ∉ texts)

include closed something

private theorem isLabel_ofResidue {text : String} (member : text ∈ texts) :
    (ofResidue text).isLabel = Text.opensLabel text ∧ ofResidue text ≠ unclosed := by
  cases opens : Text.opensLabel text with
  | true =>
    obtain ⟨name, rfl⟩ := (closed text member).exists_name opens
    rw [ofResidue_label]
    exact ⟨rfl, by simp⟩
  | false =>
    rw [ofResidue_operation opens (ne_of_mem_of_not_mem member something)]
    exact ⟨rfl, by simp⟩

private theorem ne_unclosed_of_mem : ∀ statement ∈ texts.map ofResidue, statement ≠ unclosed := by
  intro statement member
  obtain ⟨text, present, rfl⟩ := List.mem_map.mp member
  exact (isLabel_ofResidue closed something present).2

/-- Closed texts take as many addresses as the assembler counts. -/
theorem room_map_ofResidue {part : List String} (within : part ⊆ texts) :
    room (part.map ofResidue) = Text.addresses part := by
  rw [room, List.countP_map, Text.addresses]
  apply List.countP_congr
  intro text member
  rw [Function.comp_apply, (isLabel_ofResidue closed something (within member)).1]

end Closed

private theorem variableNames_map_ofResidue (texts : List String) :
    variableNames (texts.map ofResidue) = Text.variableNames texts := by
  have labels : ∀ name, (texts.map ofResidue).contains (label name) = texts.contains ("(" ++ name ++ ")") := by
    intro name
    rw [Bool.eq_iff_iff, List.contains_iff_mem, List.contains_iff_mem, List.mem_map]
    simp [ofResidue_eq_label_iff]
  simp only [variableNames, unknowns, Text.variableNames, labels, List.filterMap_map, Function.comp_def,
    reference?_ofResidue]

end Statement

namespace Image

private theorem addressOf_eq_ok_iff {image : Image} {name : String} {address : Word} :
    image.addressOf name = .ok address ↔ image.symbols[name]? = some address := by
  rw [addressOf]
  split <;> simp_all

section Texts

variable {texts : List String} {image : Image} (closed : ∀ text ∈ texts, Text.Closed text) (something : "" ∉ texts)
  (success : ofStatements (texts.map Statement.ofResidue) = .ok image)
  {before after : List String} {name : String}

include closed something success

/-- There is one instruction for each text that takes an address. -/
theorem ofResidues_size : image.instructions.size = Text.addresses texts := by
  rw [← Statement.room_map_ofResidue closed something (List.Subset.refl texts)]
  exact ofStatements_size success (Statement.ne_unclosed_of_mem closed something)

/-- A text that is no label stands as an instruction at the number of addresses before it. -/
theorem ofResidues_operation {text : String} (whole : texts = before ++ text :: after)
    (other : Text.opensLabel text = false) :
    ∃ code instruction, Operation.ofText text.toList = .ok code ∧ code.resolve? image.symbols = some instruction ∧
      image.instructions[Text.addresses before]? = some instruction := by
  have member : text ∈ texts := by simp [whole]
  have earlier : before ⊆ texts := by simp [whole]
  rw [← Statement.room_map_ofResidue closed something earlier]
  apply ofStatements_operation success (Statement.ne_unclosed_of_mem closed something)
  rw [whole, List.map_append, List.map_cons,
    Statement.ofResidue_operation other (ne_of_mem_of_not_mem member something)]

/-- A label is bound to the number of addresses before it. -/
theorem ofResidues_label (whole : texts = before ++ ("(" ++ name ++ ")") :: after) :
    ∃ address, image.addressOf name = .ok address ∧ address.toNat = Text.addresses before := by
  have earlier : before ⊆ texts := by simp [whole]
  simp only [addressOf_eq_ok_iff]
  rw [← Statement.room_map_ofResidue closed something earlier]
  apply ofStatements_label success
  rw [whole, List.map_append, List.map_cons, Statement.ofResidue_label]

/-- A reference loads the address of its name. -/
theorem ofResidues_reference (whole : texts = before ++ ("@" ++ name) :: after)
    (digits : name.toList.all Char.isDigit = false) :
    ∃ address, image.addressOf name = .ok address ∧
      image.instructions[Text.addresses before]? = some (.load address) := by
  obtain ⟨code, instruction, read, resolved, emitted⟩ :=
    ofResidues_operation closed something success whole (by simp [Text.opensLabel])
  rw [Operation.ofText_eq_symbol_iff.mpr ⟨by simp, digits⟩] at read
  cases read
  obtain ⟨address, bound, rfl⟩ := Option.map_eq_some_iff.mp resolved
  exact ⟨address, addressOf_eq_ok_iff.mpr bound, emitted⟩

end Texts

end Image

/-- An image is the program of texts, and its symbols are those of the texts. -/
structure Image.Resolves (image : Image) (texts : List String) : Prop where
  size : image.instructions.size = Text.addresses texts
  /-- There is one instruction for each text that is no label, in order. -/
  operation : ∀ before text after, texts = before ++ text :: after → Text.opensLabel text = false →
    ∃ code instruction, Operation.ofText text.toList = .ok code ∧
      code.resolve? image.symbols = some instruction ∧
      image.instructions[Text.addresses before]? = some instruction
  /-- A label is bound to the number of instructions before it. -/
  label : ∀ before name after, texts = before ++ ("(" ++ name ++ ")") :: after →
    name ∉ Image.predefined ∧
      ∃ address, image.addressOf name = .ok address ∧ address.toNat = Text.addresses before
  /-- A reference loads the one address of its name. -/
  reference : ∀ before name after, texts = before ++ ("@" ++ name) :: after → name.toList.all Char.isDigit = false →
    ∃ address, image.addressOf name = .ok address ∧
      image.instructions[Text.addresses before]? = some (.load address)
  predefined : ∀ name address, Image.predefined[name]? = some address → image.addressOf name = .ok address
  distinct : (Text.variableNames texts).Nodup
  /-- Variables are numbered from 16 on in the order of first references. -/
  cell : ∀ index name, (Text.variableNames texts)[index]? = some name →
    ∃ address, image.addressOf name = .ok address ∧ address.toNat = 16 + index
  /-- No other name has an address. -/
  known : ∀ name address, image.addressOf name = .ok address →
    name ∈ Image.predefined ∨ "(" ++ name ++ ")" ∈ texts ∨ name ∈ Text.variableNames texts

/-- A text that assembles, and in which every parenthesis that opens a line is closed at its end, has its symbols
resolved. -/
theorem symbols_resolve_consistently {lines : List String} {image : Image}
    (closed : ∀ text ∈ Text.residues lines, Text.Closed text) (assembled : Image.assemble lines = .ok image) :
    image.Resolves (Text.residues lines) := by
  have something : "" ∉ Text.residues lines := by simp [Text.residues]
  have success : Image.ofStatements ((Text.residues lines).map Statement.ofResidue) = .ok image := by
    rwa [← Statement.filterMap_ofLine?]
  have variableNames := Statement.variableNames_map_ofResidue (Text.residues lines)
  constructor
  case size => exact Image.ofResidues_size closed something success
  case operation => exact fun before text after => Image.ofResidues_operation closed something success
  case label =>
    intro before name after whole
    refine ⟨?_, Image.ofResidues_label closed something success whole⟩
    obtain ⟨labels, layout, first, -⟩ := Image.ofStatements_eq_ok success
    have label : .label name ∈ (Text.residues lines).map Statement.ofResidue :=
      List.mem_map.mpr ⟨_, by simp [whole], Statement.ofResidue_label name⟩
    have unbound : Image.predefined[name]? = none := Image.Labels.unbound_of_run (by decide) first label
    rw [Std.TreeMap.mem_iff_isSome_getElem?, unbound]
    simp
  case reference => exact fun before name after => Image.ofResidues_reference closed something success
  case predefined =>
    intro name address fixed
    exact Image.addressOf_eq_ok_iff.mpr (Image.ofStatements_predefined success name address fixed)
  case distinct =>
    rw [← variableNames]
    exact Statement.variableNames_nodup _
  case cell =>
    intro index name found
    have distinct := Statement.variableNames_nodup ((Text.residues lines).map Statement.ofResidue)
    rw [← variableNames] at found
    obtain ⟨bound, rfl⟩ := List.getElem?_eq_some_iff.mp found
    obtain ⟨address, cell, number⟩ := Image.ofStatements_variable success (List.getElem_mem bound)
    rw [distinct.idxOf_getElem] at number
    exact ⟨address, Image.addressOf_eq_ok_iff.mpr cell, number⟩
  case known =>
    intro name address found
    rw [← variableNames]
    refine (Image.ofStatements_bound success (Image.addressOf_eq_ok_iff.mp found)).imp_right (Or.imp_left ?_)
    intro label
    obtain ⟨text, member, read⟩ := List.mem_map.mp label
    rwa [← Statement.ofResidue_eq_label_iff.mp read]

/-- Lines with a jump to a label that follows, two variables, comments and blanks. -/
def forwardLines : List String :=
  ["@END // ahead", "0;JMP", "  @ i", "M=1", "// twice", "@total", "M = D", "@i", "( END )", "@SP", "A=M"]

/-- The label stands behind seven instructions, and the variables take the first two cells. -/
theorem symbols_resolve_forwardLines :
    (∀ text ∈ Text.residues forwardLines, Text.Closed text) ∧
      ∃ image, Image.assemble forwardLines = .ok image ∧ image.instructions.size = 9 ∧
        image.addressOf "END" = .ok 7 ∧ image.instructions[0]? = some (.load 7) ∧
        image.addressOf "i" = .ok 16 ∧ image.instructions[2]? = some (.load 16) ∧
        image.instructions[6]? = some (.load 16) ∧ image.addressOf "total" = .ok 17 := by
  have texts : Text.residues forwardLines =
      ["@END", "0;JMP", "@i", "M=1", "@total", "M=D", "@i", "(END)", "@SP", "A=M"] := by decide +kernel
  have closed : ∀ text ∈ Text.residues forwardLines, Text.Closed text := by
    rw [texts]
    decide
  obtain ⟨image, assembled, -⟩ := @Runs.exists_of_any _ _ (Image.assemble forwardLines) (fun _ => true)
    (by decide +kernel)
  have resolves := symbols_resolve_consistently closed assembled
  have variableNames : Text.variableNames (Text.residues forwardLines) = ["i", "total"] := by decide +kernel
  obtain ⟨-, last, endFound, endPlace⟩ :=
    resolves.label ["@END", "0;JMP", "@i", "M=1", "@total", "M=D", "@i"] "END" ["@SP", "A=M"] texts
  obtain rfl : last = 7 := BitVec.eq_of_toNat_eq endPlace
  obtain ⟨target, targetFound, jump⟩ := resolves.reference [] "END" _ texts (by decide)
  cases endFound.symm.trans targetFound
  obtain ⟨first, firstFound, firstCell⟩ := resolves.cell 0 "i" (by rw [variableNames]; rfl)
  obtain rfl : first = 16 := BitVec.eq_of_toNat_eq firstCell
  obtain ⟨early, earlyFound, earlyLoad⟩ := resolves.reference ["@END", "0;JMP"] "i" _ texts (by decide)
  cases firstFound.symm.trans earlyFound
  obtain ⟨late, lateFound, lateLoad⟩ :=
    resolves.reference ["@END", "0;JMP", "@i", "M=1", "@total", "M=D"] "i" _ texts (by decide)
  cases firstFound.symm.trans lateFound
  obtain ⟨second, secondFound, secondCell⟩ := resolves.cell 1 "total" (by rw [variableNames]; rfl)
  obtain rfl : second = 17 := BitVec.eq_of_toNat_eq secondCell
  refine ⟨closed, image, assembled, ?_, endFound, jump, firstFound, earlyLoad, lateLoad, secondFound⟩
  rw [resolves.size, texts]
  rfl

end HackVM
