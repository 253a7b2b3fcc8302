import HackVM.Proofs.Lines
import HackVM.Proofs.Names

/-! # The grammar of source texts

`Spells` says which lines are commands: a mnemonic and the operands that go with it, each behind a gap of
spaces and tabs. `IsFault` says what is wrong with any other line. Every line either spells one command or
has one fault, and that is what reading finds. So a source text is read iff each line that says something
spells a command, and otherwise the first line that does not is told, with its fault.
-/

namespace HackVM.Listing

/-- One or more spaces and tabs. -/
structure IsGap (text : List Char) : Prop where
  nonempty : text ≠ []
  chars : ∀ c ∈ text, c = ' ' ∨ c = '\t'

/-- One or more digits whose value fits into a word, leading zeros included. -/
structure IsNumeral (text : List Char) (value : Word) : Prop where
  nonempty : text ≠ []
  digits : ∀ c ∈ text, c.isDigit = true
  value_eq : Nat.ofDigitChars 10 text 0 = value.toNat

/-- One or more characters, none of them blank. -/
structure IsWord (word : String) : Prop where
  nonempty : word.toList ≠ []
  chars : ∀ c ∈ word.toList, Text.isBlank c = false

/-- A gap and a word. -/
def OneOperand (text : List Char) (word : String) : Prop :=
  ∃ gap, IsGap gap ∧ text = gap ++ word.toList

/-- A gap, a word, another gap and a numeral. -/
def TwoOperands (text : List Char) (word : String) (number : Word) : Prop :=
  ∃ first second digits, IsGap first ∧ IsGap second ∧ IsNumeral digits number ∧
    text = first ++ word.toList ++ (second ++ digits)

/-- The commands that stand alone. -/
def plainCommands : List (String × Command) :=
  ("return", .ret) :: Operator.all.map fun operator => (operator.name, .arithmetic operator)

/-- The commands on a segment and an index. -/
def memoryCommands : List (String × (Segment → Word → Command)) := [("push", .push), ("pop", .pop)]

/-- The commands on a label. -/
def labelCommands : List (String × (String → Command)) :=
  [("label", .label), ("goto", .goto), ("if-goto", .ifGoto)]

/-- The commands on a function and a count. -/
def functionCommands : List (String × (String → Word → Command)) :=
  [("function", .function), ("call", .call)]

/-- All words that begin a command. -/
def mnemonics : List String :=
  plainCommands.map Prod.fst ++ memoryCommands.map Prod.fst ++ labelCommands.map Prod.fst ++
    functionCommands.map Prod.fst

example : mnemonics = ["return", "add", "sub", "neg", "eq", "gt", "lt", "and", "or", "not", "push", "pop", "label",
    "goto", "if-goto", "function", "call"] := rfl

/-- A line that is a command. -/
inductive Spells : List Char → Command → Prop where
  | plain {mnemonic : String} {command : Command} (known : (mnemonic, command) ∈ plainCommands) :
      Spells mnemonic.toList command
  | memory {mnemonic : String} {make : Segment → Word → Command} {operands : List Char} {segment : Segment}
      {index : Word} (known : (mnemonic, make) ∈ memoryCommands)
      (follow : TwoOperands operands segment.name index) :
      Spells (mnemonic.toList ++ operands) (make segment index)
  | label {mnemonic : String} {make : String → Command} {operands : List Char} {name : String}
      (known : (mnemonic, make) ∈ labelCommands) (identifier : IsIdentifier name)
      (follow : OneOperand operands name) : Spells (mnemonic.toList ++ operands) (make name)
  | function {mnemonic : String} {make : String → Word → Command} {operands : List Char} {name : String}
      {count : Word} (known : (mnemonic, make) ∈ functionCommands) (identifier : IsIdentifier name)
      (follow : TwoOperands operands name count) : Spells (mnemonic.toList ++ operands) (make name count)

/-- The first word of a line, which ends at the first blank. -/
structure StartsWith (line : List Char) (word : String) : Prop where
  chars : ∀ c ∈ word.toList, Text.isBlank c = false
  ends : ∃ rest, line = word.toList ++ rest ∧ ∀ c ∈ rest.head?, Text.isBlank c = true

/-- A line that has the shape of a memory command but names no segment. -/
def MissesSegment (line : List Char) (word : String) : Prop :=
  ∃ mnemonic make operands index, (mnemonic, make) ∈ memoryCommands ∧ line = mnemonic.toList ++ operands ∧
    TwoOperands operands word index ∧ IsWord word ∧ ∀ segment : Segment, segment.name ≠ word

/-- What is wrong with a line that is no command. -/
def IsFault (line : List Char) : LineFault → Prop
  | .unrecognizedMnemonic word => StartsWith line word ∧ word ∉ mnemonics
  | .unknownSegment word => MissesSegment line word
  | .malformedOperands word text =>
    StartsWith line word ∧ word ∈ mnemonics ∧ text.toList = line ∧ (∀ command, ¬ Spells line command) ∧
      ∀ word, ¬ MissesSegment line word

private theorem isSeparator_iff {c : Char} : isSeparator c = true ↔ c = ' ' ∨ c = '\t' := by
  simp [isSeparator]

private theorem isSeparator_of_blank {c : Char} (solid : Text.isBlank c = false) : isSeparator c = false := by
  apply Bool.eq_false_iff.mpr
  intro separator
  rcases isSeparator_iff.mp separator with rfl | rfl
  · exact absurd solid (by decide)
  · exact absurd solid (by decide)

private theorem isBlank_of_isNameChar {c : Char} (accepted : isNameChar c = true) : Text.isBlank c = false := by
  obtain ⟨low, high, -⟩ := toNat_of_isNameChar accepted
  exact Text.isBlank_eq_false_of_printable low high

theorem isBlank_of_isDigit {c : Char} (digit : c.isDigit = true) : Text.isBlank c = false := by
  have range := Text.toNat_of_isDigit digit
  exact Text.isBlank_eq_false_of_printable (by omega) (by omega)

/-- A text that starts with a gap starts with a blank, which ends every name. -/
theorem IsGap.head {gap : List Char} (isGap : IsGap gap) (rest : List Char) :
    ∀ c ∈ (gap ++ rest).head?, Text.isBlank c = true ∧ isNameChar c = false := by
  intro c head
  cases gap with
  | nil => exact absurd rfl isGap.nonempty
  | cons d gap =>
    cases head
    rcases isGap.chars c (List.mem_cons_self ..) with rfl | rfl
    · decide
    · decide

private theorem takeRun?_eq_some_iff {accepts : Char → Bool} {text run rest : List Char} :
    takeRun? accepts text = some (run, rest) ↔
      run ≠ [] ∧ text = run ++ rest ∧ (∀ c ∈ run, accepts c = true) ∧ ∀ c ∈ rest.head?, accepts c = false := by
  rw [← Text.span_eq_iff, takeRun?]
  obtain ⟨found, other⟩ := text.span accepts
  cases found with
  | nil =>
    constructor
    · intro success
      contradiction
    · rintro ⟨nonempty, same⟩
      exact absurd (Prod.mk.inj same).1.symm nonempty
  | cons c found =>
    constructor
    · intro success
      cases success
      exact ⟨by simp, rfl⟩
    · rintro ⟨-, same⟩
      rw [← same]

private theorem skipSeparators?_eq_some_iff {text rest : List Char} :
    skipSeparators? text = some rest ↔
      ∃ gap, IsGap gap ∧ text = gap ++ rest ∧ ∀ c ∈ rest.head?, isSeparator c = false := by
  simp only [skipSeparators?, Option.map_eq_some_iff, Prod.exists, takeRun?_eq_some_iff, isSeparator_iff]
  constructor
  · rintro ⟨gap, _, ⟨nonempty, split, chars, stops⟩, rfl⟩
    exact ⟨gap, ⟨nonempty, chars⟩, split, stops⟩
  · rintro ⟨gap, isGap, split, stops⟩
    exact ⟨gap, rest, ⟨isGap.nonempty, split, isGap.chars, stops⟩, rfl⟩

/-- An operand is a gap and a longest run of a class that holds no blanks. -/
theorem operand_iff (accepts : Char → Bool) (solid : ∀ c, accepts c = true → Text.isBlank c = false)
    (text run rest : List Char) :
    (∃ middle, skipSeparators? text = some middle ∧ takeRun? accepts middle = some (run, rest)) ↔
      run ≠ [] ∧ (∀ c ∈ run, accepts c = true) ∧ (∀ c ∈ rest.head?, accepts c = false) ∧
        ∃ gap, IsGap gap ∧ text = gap ++ run ++ rest := by
  simp only [skipSeparators?_eq_some_iff, takeRun?_eq_some_iff]
  constructor
  · rintro ⟨middle, ⟨gap, isGap, rfl, -⟩, nonempty, rfl, chars, stops⟩
    exact ⟨nonempty, chars, stops, gap, isGap, by rw [List.append_assoc]⟩
  · rintro ⟨nonempty, chars, stops, gap, isGap, rfl⟩
    refine ⟨run ++ rest, ⟨gap, isGap, by rw [List.append_assoc], ?_⟩, nonempty, rfl, chars, stops⟩
    intro c head
    cases run with
    | nil => exact absurd rfl nonempty
    | cons d run =>
      cases head
      exact isSeparator_of_blank (solid c (chars c (List.mem_cons_self ..)))

private theorem wordOperand?_eq_some_iff {text rest : List Char} {word : String} :
    wordOperand? text = some (word, rest) ↔
      IsWord word ∧ (∀ c ∈ rest.head?, Text.isBlank c = true) ∧
        ∃ gap, IsGap gap ∧ text = gap ++ word.toList ++ rest := by
  have operand (run : List Char) := operand_iff (fun c => !Text.isBlank c) (by simp) text run rest
  simp only [wordOperand?, bind, Option.bind_eq_some_iff, Prod.exists, pure, Option.some.injEq, Prod.mk.injEq]
  constructor
  · rintro ⟨middle, skipped, run, _, taken, rfl, rfl⟩
    obtain ⟨nonempty, chars, stops, gap, isGap, split⟩ := (operand run).mp ⟨middle, skipped, taken⟩
    refine ⟨⟨by simpa using nonempty, by simpa using chars⟩, by simpa using stops, gap, isGap, ?_⟩
    rw [split, String.toList_ofList]
  · rintro ⟨isWord, stops, gap, isGap, split⟩
    obtain ⟨middle, skipped, taken⟩ := (operand word.toList).mpr
      ⟨isWord.nonempty, by simpa using isWord.chars, by simpa using stops, gap, isGap, split⟩
    exact ⟨middle, skipped, word.toList, rest, taken, String.ofList_toList, rfl⟩

private theorem nameOperand?_eq_some_iff {text rest : List Char} {name : String} :
    nameOperand? text = some (name, rest) ↔
      IsIdentifier name ∧ (∀ c ∈ rest.head?, isNameChar c = false) ∧
        ∃ gap, IsGap gap ∧ text = gap ++ name.toList ++ rest := by
  have operand (run : List Char) := operand_iff isNameChar (fun _ => isBlank_of_isNameChar) text run rest
  simp only [nameOperand?, bind, Option.bind_eq_some_iff, Prod.exists]
  constructor
  · rintro ⟨middle, skipped, run, after, taken, success⟩
    split_ifs at success with digit
    cases success
    obtain ⟨nonempty, chars, stops, gap, isGap, split⟩ := (operand run).mp ⟨middle, skipped, taken⟩
    refine ⟨⟨by simpa using nonempty, by simpa using chars, by simpa using digit⟩, stops, gap, isGap, ?_⟩
    rw [split, String.toList_ofList]
  · rintro ⟨identifier, stops, gap, isGap, split⟩
    obtain ⟨middle, skipped, taken⟩ := (operand name.toList).mpr
      ⟨identifier.nonempty, identifier.chars, stops, gap, isGap, split⟩
    refine ⟨middle, skipped, name.toList, rest, taken, ?_⟩
    rw [identifier.head, String.ofList_toList]
    rfl

/-- Digits are read as a word iff they are its numeral. -/
theorem ofDigits?_eq_some_iff {digits : List Char} {value : Word} :
    Word.ofDigits? digits = some value ↔ IsNumeral digits value := by
  have same : Word.digitsValue digits = Nat.ofDigitChars 10 digits 0 := Nat.ofDigitChars_eq_foldl.symm
  have small := value.isLt
  rw [Word.ofDigits?, Word.ofNat?, same]
  split_ifs with wrong fits
  · constructor
    · intro success
      contradiction
    · rintro ⟨nonempty, digits, -⟩
      rw [List.all_eq_true.mpr digits, List.isEmpty_eq_false_iff.mpr nonempty] at wrong
      contradiction
  · rw [Bool.or_eq_true, not_or, List.isEmpty_iff, Bool.not_eq_true', Bool.not_eq_false, List.all_eq_true] at wrong
    rw [Option.some.injEq]
    constructor
    · rintro rfl
      refine ⟨wrong.1, wrong.2, ?_⟩
      rw [BitVec.toNat_ofNat, Nat.mod_eq_of_lt fits]
    · rintro ⟨-, -, value_eq⟩
      rw [value_eq, BitVec.ofNat_toNat, BitVec.setWidth_eq]
  · constructor
    · intro success
      contradiction
    · rintro ⟨-, -, value_eq⟩
      omega

private theorem numberOperand?_eq_some_iff {text : List Char} {number : Word} :
    numberOperand? text = some (number, []) ↔
      ∃ gap digits, IsGap gap ∧ IsNumeral digits number ∧ text = gap ++ digits := by
  have operand (run : List Char) := operand_iff Char.isDigit (fun _ => isBlank_of_isDigit) text run []
  simp only [numberOperand?, bind, Option.bind_eq_some_iff, Prod.exists, pure, Option.some.injEq, Prod.mk.injEq]
  constructor
  · rintro ⟨middle, skipped, digits, _, taken, value, read, rfl, rfl⟩
    obtain ⟨-, -, -, gap, isGap, split⟩ := (operand digits).mp ⟨middle, skipped, taken⟩
    exact ⟨gap, digits, isGap, ofDigits?_eq_some_iff.mp read, by simpa using split⟩
  · rintro ⟨gap, digits, isGap, numeral, rfl⟩
    obtain ⟨middle, skipped, taken⟩ := (operand digits).mpr
      ⟨numeral.nonempty, numeral.digits, by simp, gap, isGap, by simp⟩
    exact ⟨middle, skipped, digits, [], taken, number, ofDigits?_eq_some_iff.mpr numeral, rfl, rfl⟩

private theorem name?_eq_some_iff {text : List Char} {name : String} :
    name? text = some name ↔ IsIdentifier name ∧ OneOperand text name := by
  rw [name?, complete?_eq_some_iff, nameOperand?_eq_some_iff, OneOperand]
  simp

private theorem wordAndNumber?_eq_some_iff {text : List Char} {word : String} {number : Word} :
    wordAndNumber? text = some (word, number) ↔ IsWord word ∧ TwoOperands text word number := by
  simp only [wordAndNumber?, bind, Option.bind_eq_some_iff, Prod.exists, complete?_eq_some_iff, pure,
    Option.some.injEq, Prod.mk.injEq, wordOperand?_eq_some_iff, numberOperand?_eq_some_iff]
  constructor
  · rintro ⟨_, rest, ⟨isWord, -, first, gap, rfl⟩, _, ⟨second, digits, apart, numeral, rfl⟩, rfl, rfl⟩
    exact ⟨isWord, first, second, digits, gap, apart, numeral, rfl⟩
  · rintro ⟨isWord, first, second, digits, gap, apart, numeral, rfl⟩
    exact ⟨word, second ++ digits, ⟨isWord, fun c head => (apart.head digits c head).1, first, gap, rfl⟩, number,
      ⟨second, digits, apart, numeral, rfl⟩, rfl, rfl⟩

private theorem nameAndNumber?_eq_some_iff {text : List Char} {name : String} {number : Word} :
    nameAndNumber? text = some (name, number) ↔ IsIdentifier name ∧ TwoOperands text name number := by
  simp only [nameAndNumber?, bind, Option.bind_eq_some_iff, Prod.exists, complete?_eq_some_iff, pure,
    Option.some.injEq, Prod.mk.injEq, nameOperand?_eq_some_iff, numberOperand?_eq_some_iff]
  constructor
  · rintro ⟨_, rest, ⟨identifier, -, first, gap, rfl⟩, _, ⟨second, digits, apart, numeral, rfl⟩, rfl, rfl⟩
    exact ⟨identifier, first, second, digits, gap, apart, numeral, rfl⟩
  · rintro ⟨identifier, first, second, digits, gap, apart, numeral, rfl⟩
    exact ⟨name, second ++ digits, ⟨identifier, fun c head => (apart.head digits c head).2, first, gap, rfl⟩,
      number, ⟨second, digits, apart, numeral, rfl⟩, rfl, rfl⟩

private theorem splitWord_eq_iff {line operands : List Char} {mnemonic : String} :
    Text.splitWord line = (mnemonic.toList, operands) ↔
      line = mnemonic.toList ++ operands ∧ (∀ c ∈ mnemonic.toList, Text.isBlank c = false) ∧
        ∀ c ∈ operands.head?, Text.isBlank c = true := by
  rw [Text.splitWord, Text.span_eq_iff]
  simp

section Families

variable {line operands : List Char} {mnemonic : String}

/-- The fault of a line with the wrong operands. -/
abbrev malformed (mnemonic : String) (line : List Char) : LineFault :=
  .malformedOperands mnemonic (String.ofList line)

private theorem command_of_plain {result : Command} (known : (mnemonic, result) ∈ plainCommands)
    (starts : Text.splitWord line = (mnemonic.toList, operands)) :
    command line = if operands = [] then .ok result else .error (malformed mnemonic line) := by
  simp only [plainCommands, Operator.all, List.map_cons, List.map_nil, List.mem_cons, Prod.mk.injEq,
    List.not_mem_nil, or_false] at known
  rcases known with ⟨rfl, rfl⟩ | ⟨rfl, rfl⟩ | ⟨rfl, rfl⟩ | ⟨rfl, rfl⟩ | ⟨rfl, rfl⟩ | ⟨rfl, rfl⟩ | ⟨rfl, rfl⟩ |
    ⟨rfl, rfl⟩ | ⟨rfl, rfl⟩ | ⟨rfl, rfl⟩
  all_goals
    cases operands with
    | nil => simp [command, starts, Operator.name, Operator.ofName?, Operator.all]
    | cons c rest => simp [command, starts, Operator.name, Operator.ofName?, Operator.all]

private theorem command_of_memory {make : Segment → Word → Command} (known : (mnemonic, make) ∈ memoryCommands)
    (starts : Text.splitWord line = (mnemonic.toList, operands)) :
    command line =
      match wordAndNumber? operands with
      | none => .error (malformed mnemonic line)
      | some (word, index) =>
        match Segment.ofName? word with
        | some segment => .ok (make segment index)
        | none => .error (.unknownSegment word) := by
  simp only [memoryCommands, List.mem_cons, Prod.mk.injEq, List.not_mem_nil, or_false] at known
  rcases known with ⟨rfl, rfl⟩ | ⟨rfl, rfl⟩
  all_goals
    simp only [command, starts, String.ofList_toList]
    cases wordAndNumber? operands with
    | none => rfl
    | some found => rfl

private theorem command_of_label {make : String → Command} (known : (mnemonic, make) ∈ labelCommands)
    (starts : Text.splitWord line = (mnemonic.toList, operands)) :
    command line =
      match name? operands with
      | none => .error (malformed mnemonic line)
      | some name => .ok (make name) := by
  simp only [labelCommands, List.mem_cons, Prod.mk.injEq, List.not_mem_nil, or_false] at known
  rcases known with ⟨rfl, rfl⟩ | ⟨rfl, rfl⟩ | ⟨rfl, rfl⟩
  all_goals
    simp only [command, starts, String.ofList_toList]
    cases name? operands with
    | none => rfl
    | some name => rfl

private theorem command_of_function {make : String → Word → Command} (known : (mnemonic, make) ∈ functionCommands)
    (starts : Text.splitWord line = (mnemonic.toList, operands)) :
    command line =
      match nameAndNumber? operands with
      | none => .error (malformed mnemonic line)
      | some (name, count) => .ok (make name count) := by
  simp only [functionCommands, List.mem_cons, Prod.mk.injEq, List.not_mem_nil, or_false] at known
  rcases known with ⟨rfl, rfl⟩ | ⟨rfl, rfl⟩
  all_goals
    simp only [command, starts, String.ofList_toList]
    cases nameAndNumber? operands with
    | none => rfl
    | some found => rfl

private theorem command_of_unknown (unknown : mnemonic ∉ mnemonics)
    (starts : Text.splitWord line = (mnemonic.toList, operands)) :
    command line = .error (.unrecognizedMnemonic mnemonic) := by
  simp only [mnemonics, plainCommands, memoryCommands, labelCommands, functionCommands, Operator.all, Operator.name,
    List.map_cons, List.map_nil, List.cons_append, List.nil_append, List.mem_cons, List.not_mem_nil, or_false,
    not_or] at unknown
  obtain ⟨ret, add, sub, neg, eq, gt, lt, and, or, not, push, pop, label, goto, ifGoto, function, call⟩ := unknown
  simp only [command, starts, String.ofList_toList]
  simp [Operator.ofName?, Operator.all, Operator.name, Ne.symm add, Ne.symm sub, Ne.symm neg, Ne.symm eq, Ne.symm gt,
    Ne.symm lt, Ne.symm and, Ne.symm or, Ne.symm not]

/-- A known mnemonic is of one of four kinds. -/
theorem mem_mnemonics_iff :
    mnemonic ∈ mnemonics ↔
      (∃ command, (mnemonic, command) ∈ plainCommands) ∨ (∃ make, (mnemonic, make) ∈ memoryCommands) ∨
        (∃ make, (mnemonic, make) ∈ labelCommands) ∨ ∃ make, (mnemonic, make) ∈ functionCommands := by
  simp only [mnemonics, List.mem_append, List.mem_map, Prod.exists, exists_and_right, exists_eq_right, or_assoc]

private theorem solid_of_mem_mnemonics (known : mnemonic ∈ mnemonics) :
    ∀ c ∈ mnemonic.toList, Text.isBlank c = false := by
  have solid : ∀ word ∈ mnemonics, ∀ c ∈ word.toList, Text.isBlank c = false := by decide
  exact solid mnemonic known

/-- A mnemonic is the first word of a line if a blank or nothing follows. -/
theorem splitWord_mnemonic (known : mnemonic ∈ mnemonics) (head : ∀ c ∈ operands.head?, Text.isBlank c = true) :
    Text.splitWord (mnemonic.toList ++ operands) = (mnemonic.toList, operands) :=
  splitWord_eq_iff.mpr ⟨rfl, solid_of_mem_mnemonics known, head⟩

end Families

theorem OneOperand.head {text : List Char} {word : String} (follow : OneOperand text word) :
    ∀ c ∈ text.head?, Text.isBlank c = true := by
  obtain ⟨gap, isGap, rfl⟩ := follow
  exact fun c head => (isGap.head _ c head).1

theorem TwoOperands.head {text : List Char} {word : String} {number : Word} (follow : TwoOperands text word number) :
    ∀ c ∈ text.head?, Text.isBlank c = true := by
  obtain ⟨gap, second, digits, isGap, -, -, rfl⟩ := follow
  rw [List.append_assoc]
  exact fun c head => (isGap.head _ c head).1

private theorem isWord_segmentName (segment : Segment) : IsWord segment.name := by
  constructor
  · cases segment <;> decide
  · cases segment <;> decide

private theorem ofName?_segmentName (segment : Segment) : Segment.ofName? segment.name = some segment := by
  cases segment <;> decide

private theorem ofName?_eq_none_iff {word : String} :
    Segment.ofName? word = none ↔ ∀ segment : Segment, segment.name ≠ word := by
  rw [Segment.ofName?, List.find?_eq_none]
  constructor
  · intro none segment same
    exact none segment (by cases segment <;> decide) (beq_iff_eq.mpr same)
  · intro none segment _ same
    exact none segment (beq_iff_eq.mp same)

private theorem segmentName_of_ofName? {word : String} {segment : Segment}
    (found : Segment.ofName? word = some segment) :
    segment.name = word := by
  have passes := List.find?_some found
  exact beq_iff_eq.mp passes

/-- A line that spells a command is read as this command. -/
theorem Spells.command_eq {line : List Char} {result : Command} (spells : Spells line result) :
    command line = .ok result := by
  cases spells with
  | @plain mnemonic _ known =>
    have starts : Text.splitWord (mnemonic.toList ++ []) = (mnemonic.toList, []) :=
      splitWord_mnemonic (mem_mnemonics_iff.mpr (.inl ⟨_, known⟩)) (by simp)
    rw [List.append_nil] at starts
    rw [command_of_plain known starts, if_pos rfl]
  | memory known follow =>
    have starts := splitWord_mnemonic (mem_mnemonics_iff.mpr (.inr (.inl ⟨_, known⟩))) follow.head
    have operands := wordAndNumber?_eq_some_iff.mpr ⟨isWord_segmentName _, follow⟩
    simp only [command_of_memory known starts, operands, ofName?_segmentName]
  | label known identifier follow =>
    have starts := splitWord_mnemonic (mem_mnemonics_iff.mpr (.inr (.inr (.inl ⟨_, known⟩)))) follow.head
    have operand := name?_eq_some_iff.mpr ⟨identifier, follow⟩
    simp only [command_of_label known starts, operand]
  | function known identifier follow =>
    have starts := splitWord_mnemonic (mem_mnemonics_iff.mpr (.inr (.inr (.inr ⟨_, known⟩)))) follow.head
    have operands := nameAndNumber?_eq_some_iff.mpr ⟨identifier, follow⟩
    simp only [command_of_function known starts, operands]

theorem MissesSegment.command_eq {line : List Char} {word : String} (misses : MissesSegment line word) :
    command line = .error (.unknownSegment word) := by
  obtain ⟨mnemonic, make, operands, index, known, rfl, follow, isWord, none⟩ := misses
  have starts := splitWord_mnemonic (mem_mnemonics_iff.mpr (.inr (.inl ⟨_, known⟩))) follow.head
  have found := wordAndNumber?_eq_some_iff.mpr ⟨isWord, follow⟩
  simp only [command_of_memory known starts, found, ofName?_eq_none_iff.mpr none]

/-- Under a known mnemonic a line spells a command, or misses a segment, or its operands are wrong. -/
theorem command_known_cases {line operands : List Char} {mnemonic : String} (known : mnemonic ∈ mnemonics)
    (starts : Text.splitWord line = (mnemonic.toList, operands)) :
    (∃ result, command line = .ok result ∧ Spells line result) ∨
      (∃ word, command line = .error (.unknownSegment word) ∧ MissesSegment line word) ∨
      command line = .error (malformed mnemonic line) := by
  obtain ⟨line_eq, -⟩ := splitWord_eq_iff.mp starts
  rcases mem_mnemonics_iff.mp known with ⟨result, known⟩ | ⟨make, known⟩ | ⟨make, known⟩ | ⟨make, known⟩
  · rw [command_of_plain known starts]
    split_ifs with bare
    · rw [bare, List.append_nil] at line_eq
      exact .inl ⟨result, rfl, line_eq ▸ .plain known⟩
    · exact .inr (.inr rfl)
  · rw [command_of_memory known starts]
    cases shape : wordAndNumber? operands with
    | none => exact .inr (.inr rfl)
    | some found =>
      obtain ⟨word, index⟩ := found
      obtain ⟨isWord, follow⟩ := wordAndNumber?_eq_some_iff.mp shape
      cases named : Segment.ofName? word with
      | none =>
        have none := ofName?_eq_none_iff.mp named
        exact .inr (.inl ⟨word, by simp only [named],
          mnemonic, make, operands, index, known, line_eq, follow, isWord, none⟩)
      | some segment =>
        have name := segmentName_of_ofName? named
        refine .inl ⟨make segment index, by simp only [named], ?_⟩
        rw [line_eq]
        exact .memory known (name ▸ follow)
  · rw [command_of_label known starts]
    cases operand : name? operands with
    | none => exact .inr (.inr rfl)
    | some name =>
      obtain ⟨identifier, follow⟩ := name?_eq_some_iff.mp operand
      exact .inl ⟨make name, rfl, line_eq ▸ .label known identifier follow⟩
  · rw [command_of_function known starts]
    cases shape : nameAndNumber? operands with
    | none => exact .inr (.inr rfl)
    | some found =>
      obtain ⟨name, count⟩ := found
      obtain ⟨identifier, follow⟩ := nameAndNumber?_eq_some_iff.mp shape
      exact .inl ⟨make name count, rfl, line_eq ▸ .function known identifier follow⟩

private theorem startsWith_iff {line : List Char} {word : String} :
    StartsWith line word ↔ ∃ operands, Text.splitWord line = (word.toList, operands) := by
  simp only [splitWord_eq_iff]
  constructor
  · rintro ⟨chars, rest, line_eq, head⟩
    exact ⟨rest, line_eq, chars, head⟩
  · rintro ⟨rest, line_eq, chars, head⟩
    exact ⟨chars, rest, line_eq, head⟩

private theorem exists_startsWith (line : List Char) : ∃ word, StartsWith line word := by
  refine ⟨String.ofList (Text.splitWord line).1, startsWith_iff.mpr ⟨(Text.splitWord line).2, ?_⟩⟩
  rw [String.toList_ofList]

/-- Reading a line finds a command iff the line spells it. -/
theorem command_eq_ok_iff {line : List Char} {result : Command} :
    command line = .ok result ↔ Spells line result := by
  constructor
  · intro success
    obtain ⟨mnemonic, starts⟩ := exists_startsWith line
    obtain ⟨operands, starts⟩ := startsWith_iff.mp starts
    by_cases known : mnemonic ∈ mnemonics
    · rcases command_known_cases known starts with ⟨other, read, spells⟩ | ⟨word, failed, -⟩ | failed
      · cases success.symm.trans read
        exact spells
      · cases success.symm.trans failed
      · cases success.symm.trans failed
    · cases success.symm.trans (command_of_unknown known starts)
  · exact Spells.command_eq

/-- Reading a line fails with a fault iff this is the fault of the line. -/
theorem command_eq_error_iff {line : List Char} {fault : LineFault} :
    command line = .error fault ↔ IsFault line fault := by
  constructor
  · intro failed
    obtain ⟨mnemonic, first⟩ := exists_startsWith line
    obtain ⟨operands, starts⟩ := startsWith_iff.mp first
    by_cases known : mnemonic ∈ mnemonics
    · rcases command_known_cases known starts with ⟨other, read, -⟩ | ⟨word, other, misses⟩ | other
      · cases failed.symm.trans read
      · cases failed.symm.trans other
        exact misses
      · cases failed.symm.trans other
        refine ⟨first, known, String.toList_ofList, ?_, ?_⟩
        · intro result spells
          cases failed.symm.trans spells.command_eq
        · intro word misses
          cases failed.symm.trans misses.command_eq
    · cases failed.symm.trans (command_of_unknown known starts)
      exact ⟨first, known⟩
  · intro isFault
    cases fault with
    | unrecognizedMnemonic word =>
      obtain ⟨first, unknown⟩ := isFault
      obtain ⟨operands, starts⟩ := startsWith_iff.mp first
      exact command_of_unknown unknown starts
    | unknownSegment word => exact MissesSegment.command_eq isFault
    | malformedOperands word text =>
      obtain ⟨first, known, rfl, noCommand, noSegment⟩ := isFault
      obtain ⟨operands, starts⟩ := startsWith_iff.mp first
      rcases command_known_cases known starts with ⟨result, -, spells⟩ | ⟨other, -, misses⟩ | failed
      · exact absurd spells (noCommand result)
      · exact absurd misses (noSegment other)
      · rw [failed, malformed, String.ofList_toList]

private theorem numberedCommand_eq_ok_iff {number : Nat} {content : List Char} {numbered : NumberedCommand} :
    numberedCommand (number, content) = .ok numbered ↔
      numbered.line = number ∧ Spells content numbered.command := by
  rw [← command_eq_ok_iff, numberedCommand]
  obtain ⟨line, result⟩ := numbered
  cases command content <;> simp [eq_comm, and_comm]

private theorem numberedCommand_eq_error_iff {number : Nat} {content : List Char} {error : ReadError} :
    numberedCommand (number, content) = .error error ↔ error.line = number ∧ IsFault content error.fault := by
  rw [← command_eq_error_iff, numberedCommand]
  obtain ⟨line, fault⟩ := error
  cases command content <;> simp [eq_comm, and_comm]

/-- The lines that say something are those whose content is not empty. -/
theorem numberedContents_eq (text : List Char) :
    numberedContents text =
      ((((Text.lines text).map Text.content).zipIdx 1).filter fun line => line.1 ≠ []).map Prod.swap := by
  rw [numberedContents]
  generalize 1 = number
  induction Text.lines text generalizing number with
  | nil => rfl
  | cons line rest ih =>
    rw [List.zipIdx_cons, List.filterMap_cons, ih, List.map_cons, List.zipIdx_cons]
    by_cases silent : Text.content line = []
    · simp [silent]
    · simp [silent]

/-- Reading a text reads the lines that say something. -/
theorem ofSource_eq (source : String) :
    ofSource source =
      ((((Text.lines source.toList).map Text.content).zipIdx 1).filter fun line => line.1 ≠ []).mapM
        fun line => numberedCommand line.swap := by
  rw [ofSource, numberedContents_eq, List.mapM_map]
  rfl

private theorem numberedCommand_swap_eq_ok_iff {line : List Char × Nat} {numbered : NumberedCommand} :
    numberedCommand line.swap = .ok numbered ↔ numbered.line = line.2 ∧ Spells line.1 numbered.command :=
  numberedCommand_eq_ok_iff

section Said

variable {said : List (List Char × Nat)}

private theorem exists_mapM_numberedCommand_iff :
    (∃ listing, said.mapM (fun line => numberedCommand line.swap) = .ok listing) ↔
      ∀ line ∈ said, ∃ command, Spells line.1 command := by
  simp only [Runs.exists_mapM_iff, numberedCommand_swap_eq_ok_iff]
  constructor
  · intro readable line member
    obtain ⟨numbered, -, spells⟩ := readable line member
    exact ⟨numbered.command, spells⟩
  · intro spelled line member
    obtain ⟨command, spells⟩ := spelled line member
    exact ⟨⟨line.2, command⟩, rfl, spells⟩

theorem mapM_numberedCommand_eq_ok_iff {listing : Listing} :
    said.mapM (fun line => numberedCommand line.swap) = .ok listing ↔
      List.Forall₂ (fun line numbered => numbered.line = line.2 ∧ Spells line.1 numbered.command) said listing := by
  simp only [Runs.mapM_eq_ok_iff, numberedCommand_swap_eq_ok_iff]

private theorem mapM_numberedCommand_eq_error_iff {error : ReadError} :
    said.mapM (fun line => numberedCommand line.swap) = .error error ↔
      ∃ before content number after, said = before ++ (content, number) :: after ∧
        (∀ line ∈ before, ∃ command, Spells line.1 command) ∧
        error.line = number ∧ IsFault content error.fault := by
  rw [Runs.mapM_eq_error_iff]
  constructor
  · rintro ⟨before, ⟨content, number⟩, after, listing, split, earlier, failed⟩
    exact ⟨before, content, number, after, split, exists_mapM_numberedCommand_iff.mp ⟨listing, earlier⟩,
      numberedCommand_eq_error_iff.mp failed⟩
  · rintro ⟨before, content, number, after, split, spelled, failed⟩
    obtain ⟨listing, earlier⟩ := exists_mapM_numberedCommand_iff.mpr spelled
    exact ⟨before, (content, number), after, listing, split, earlier, numberedCommand_eq_error_iff.mpr failed⟩

end Said

end HackVM.Listing

namespace HackVM

/-- A source text gives the commands that its lines spell, or the fault of the first line that spells none. -/
theorem source_read_by_grammar (source : String) :
    ∃ lines contents : List (List Char),
      (∀ parts, Text.SplitsInto source.toList parts ↔ parts = lines) ∧
      (∀ parts, List.Forall₂ Text.HasContent lines parts ↔ parts = contents) ∧
      let said := (contents.zipIdx 1).filter fun line => line.1 ≠ []
      ((∃ listing, Listing.ofSource source = .ok listing) ↔ ∀ line ∈ said, ∃ command, Listing.Spells line.1 command) ∧
      (∀ listing, Listing.ofSource source = .ok listing ↔
        List.Forall₂ (fun line numbered => numbered.line = line.2 ∧ Listing.Spells line.1 numbered.command)
          said listing) ∧
      ∀ error, Listing.ofSource source = .error error ↔
        ∃ before content number after, said = before ++ (content, number) :: after ∧
          (∀ line ∈ before, ∃ command, Listing.Spells line.1 command) ∧
          error.line = number ∧ Listing.IsFault content error.fault := by
  refine ⟨Text.lines source.toList, (Text.lines source.toList).map Text.content, fun _ => Text.splitsInto_iff,
    fun _ => Text.forall₂_hasContent_iff, ?_⟩
  intro said
  rw [Listing.ofSource_eq]
  exact ⟨Listing.exists_mapM_numberedCommand_iff, fun _ => Listing.mapM_numberedCommand_eq_ok_iff,
    fun _ => Listing.mapM_numberedCommand_eq_error_iff⟩

-- A blank that is neither space nor tab ends the mnemonic but parts no operands; the third line is never reached.
example : Listing.ofSource "add // sum\r\n\tpush\u00a0constant 2\njump x" =
    .error ⟨2, .malformedOperands "push" "push\u00a0constant 2"⟩ := by
  decide +kernel

end HackVM
