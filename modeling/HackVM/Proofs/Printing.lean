import HackVM.Proofs.Grammar

/-! # Printed commands

A command is printed as its words with one space between them, and commands are printed one to a line. No
word of a well-named command holds a blank or a slash, so a printed line says just what it holds and spells
the command. Hence reading printed commands gives them back, and units made of commands link to the same
result as the texts of these commands.
-/

namespace HackVM

namespace Text

/-- Words with one space between them, and no slash in any. -/
structure Tidy (text : List Char) : Prop where
  nonempty : text ≠ []
  chars : ∀ c ∈ text, c ≠ '/' ∧ (c = ' ' ∨ isBlank c = false)
  first : ∀ c ∈ text.head?, isBlank c = false
  last : ∀ c ∈ text.getLast?, isBlank c = false

private theorem Tidy.of_word {text : List Char} (nonempty : text ≠ [])
    (plain : ∀ c ∈ text, isBlank c = false ∧ c ≠ '/') :
    Tidy text where
  nonempty
  chars c member := ⟨(plain c member).2, .inr (plain c member).1⟩
  first c head := (plain c (List.mem_of_mem_head? head)).1
  last c last := (plain c (List.mem_of_mem_getLast? last)).1

theorem Tidy.append {left right : List Char} (before : Tidy left) (after : Tidy right) :
    Tidy (left ++ ' ' :: right) := by
  refine ⟨by simp, ?_, ?_, ?_⟩
  · intro c member
    rcases List.mem_append.mp member with member | member
    · exact before.chars c member
    rcases List.mem_cons.mp member with rfl | member
    · exact ⟨by decide, .inl rfl⟩
    · exact after.chars c member
  · rw [List.head?_append_of_ne_nil _ before.nonempty]
    exact before.first
  · rw [List.getLast?_append_of_ne_nil _ (List.cons_ne_nil _ _), List.getLast?_cons_of_ne_nil after.nonempty]
    exact after.last

theorem Tidy.intercalate {first : List Char} {rest : List (List Char)} (tidy : ∀ word ∈ first :: rest, Tidy word) :
    Tidy ([' '].intercalate (first :: rest)) := by
  induction rest generalizing first with
  | nil =>
    rw [List.intercalate_singleton]
    exact tidy first (List.mem_singleton_self _)
  | cons second rest ih =>
    obtain ⟨here, later⟩ := List.forall_mem_cons.mp tidy
    rw [List.intercalate_cons_cons, List.append_assoc, List.singleton_append]
    exact here.append (ih later)

/-- Nothing is dropped from a tidy line. -/
theorem Tidy.content_eq {text : List Char} (tidy : Tidy text) : content text = text := by
  have free : ¬ ['/', '/'] <:+: text := by
    rintro ⟨before, after, rfl⟩
    exact (tidy.chars '/' (by simp)).1 rfl
  have trimmed : trim ([] ++ text ++ []) = text := trim_append (by simp) (by simp) tidy.first tidy.last
  rw [content, stripComment_eq_self free]
  simpa using trimmed

theorem Tidy.noFeed {text : List Char} (tidy : Tidy text) : '\n' ∉ text := by
  intro member
  exact absurd (tidy.chars '\n' member).2 (by decide)

theorem Tidy.noReturn {text : List Char} (tidy : Tidy text) : text.getLast? ≠ some '\r' := by
  intro ends
  exact absurd (tidy.last '\r' ends) (by decide)

/-- Tidy lines that are joined by line feeds are the lines of the text. -/
theorem lines_intercalate {first : List Char} {rest : List (List Char)} (tidy : ∀ line ∈ first :: rest, Tidy line) :
    lines (['\n'].intercalate (first :: rest)) = first :: rest := by
  induction rest generalizing first with
  | nil =>
    rw [List.intercalate_singleton]
    exact lines_of_not_mem (tidy first (List.mem_singleton_self _)).noFeed
  | cons second rest ih =>
    obtain ⟨here, later⟩ := List.forall_mem_cons.mp tidy
    rw [List.intercalate_cons_cons, List.append_assoc, List.singleton_append, lines_append here.noFeed,
      dropReturn_of_ne here.noReturn, ih later]

end Text

namespace Command

/-- The words of a command in print. -/
def words : Command → List String
  | arithmetic operator => [operator.name]
  | push segment index => ["push", segment.name, index.decimal]
  | pop segment index => ["pop", segment.name, index.decimal]
  | label name => ["label", name]
  | goto name => ["goto", name]
  | ifGoto name => ["if-goto", name]
  | function name locals => ["function", name, locals.decimal]
  | call name arguments => ["call", name, arguments.decimal]
  | ret => ["return"]

private theorem toList_render (command : Command) :
    command.render.toList = [' '].intercalate (command.words.map String.toList) := by
  cases command <;> simp [render, words, List.intercalate_cons_cons]

end Command

private theorem tidy_segmentName (segment : Segment) : Text.Tidy segment.name.toList := by
  apply Text.Tidy.of_word
  · cases segment <;> decide
  · cases segment <;> decide

private theorem numeral_decimal (number : Word) : Listing.IsNumeral number.decimal.toList number :=
  Listing.ofDigits?_eq_some_iff.mp number.ofDigits?_decimal

private theorem tidy_decimal (number : Word) : Text.Tidy number.decimal.toList := by
  have numeral := numeral_decimal number
  apply Text.Tidy.of_word numeral.nonempty
  intro c member
  have range := Text.toNat_of_isDigit (numeral.digits c member)
  refine ⟨Listing.isBlank_of_isDigit (numeral.digits c member), ?_⟩
  rintro rfl
  exact absurd range.1 (by decide)

private theorem IsIdentifier.tidy {name : String} (identifier : IsIdentifier name) : Text.Tidy name.toList := by
  apply Text.Tidy.of_word identifier.nonempty
  intro c member
  obtain ⟨low, high, other⟩ := Listing.toNat_of_isNameChar (identifier.chars c member)
  exact ⟨Text.isBlank_eq_false_of_printable low high, other⟩

private theorem tidy_of_mem_mnemonics {word : String} (known : word ∈ Listing.mnemonics) : Text.Tidy word.toList := by
  have plain : ∀ word ∈ Listing.mnemonics, word.toList ≠ [] ∧ ∀ c ∈ word.toList, Text.isBlank c = false ∧ c ≠ '/' := by
    decide
  exact .of_word (plain word known).1 (plain word known).2

namespace Command

/-- No word of a well-named command holds a blank or a slash. -/
theorem WellNamed.tidy_words {command : Command} (named : command.WellNamed) :
    ∀ word ∈ command.words, Text.Tidy word.toList := by
  cases command with
  | arithmetic operator =>
    rw [words, List.forall_mem_singleton]
    exact tidy_of_mem_mnemonics (by cases operator <;> decide)
  | ret =>
    rw [words, List.forall_mem_singleton]
    exact tidy_of_mem_mnemonics (by decide)
  | push segment index | pop segment index =>
    simp only [words, List.mem_cons, List.not_mem_nil, or_false, forall_eq_or_imp, forall_eq]
    exact ⟨tidy_of_mem_mnemonics (by decide), tidy_segmentName segment, tidy_decimal index⟩
  | label name | goto name | ifGoto name =>
    have identifier := named name (List.mem_singleton_self _)
    simp only [words, List.mem_cons, List.not_mem_nil, or_false, forall_eq_or_imp, forall_eq]
    exact ⟨tidy_of_mem_mnemonics (by decide), identifier.tidy⟩
  | function name count | call name count =>
    have identifier := named name (List.mem_singleton_self _)
    simp only [words, List.mem_cons, List.not_mem_nil, or_false, forall_eq_or_imp, forall_eq]
    exact ⟨tidy_of_mem_mnemonics (by decide), identifier.tidy, tidy_decimal count⟩

private theorem words_ne_nil (command : Command) : command.words ≠ [] := by
  cases command <;> simp [words]

/-- A well-named command is printed on a tidy line. -/
theorem WellNamed.tidy_render {command : Command} (named : command.WellNamed) : Text.Tidy command.render.toList := by
  obtain ⟨first, rest, split⟩ := List.exists_cons_of_ne_nil command.words_ne_nil
  have tidy := named.tidy_words
  rw [split] at tidy
  rw [toList_render, split, List.map_cons]
  apply Text.Tidy.intercalate
  simpa using tidy

end Command

namespace Listing

private theorem isGap_space : IsGap [' '] := ⟨by simp, by simp⟩

private theorem oneOperand_print (word : String) : OneOperand (' ' :: word.toList) word :=
  ⟨[' '], isGap_space, rfl⟩

private theorem twoOperands_print (word : String) (number : Word) :
    TwoOperands (' ' :: (word.toList ++ ' ' :: number.decimal.toList)) word number :=
  ⟨[' '], [' '], number.decimal.toList, isGap_space, isGap_space, numeral_decimal number, by simp⟩

/-- A well-named command is spelled by its print. -/
theorem spells_render {command : Command} (named : command.WellNamed) : Spells command.render.toList command := by
  rw [Command.toList_render]
  cases command with
  | arithmetic operator =>
    rw [Command.words, List.map_singleton, List.intercalate_singleton]
    exact .plain (List.mem_cons_of_mem _ (List.mem_map.mpr ⟨operator, by cases operator <;> decide, rfl⟩))
  | ret =>
    rw [Command.words, List.map_singleton, List.intercalate_singleton]
    exact .plain (List.mem_cons_self ..)
  | push segment index | pop segment index =>
    simp only [Command.words, List.map_cons, List.map_nil, List.intercalate_cons_cons, List.intercalate_singleton,
      List.append_assoc, List.singleton_append]
    exact .memory (by simp [memoryCommands]) (twoOperands_print segment.name index)
  | label name | goto name | ifGoto name =>
    have identifier := named name (List.mem_singleton_self _)
    simp only [Command.words, List.map_cons, List.map_nil, List.intercalate_cons_cons, List.intercalate_singleton,
      List.append_assoc, List.singleton_append]
    exact .label (by simp [labelCommands]) identifier (oneOperand_print name)
  | function name count | call name count =>
    have identifier := named name (List.mem_singleton_self _)
    simp only [Command.words, List.map_cons, List.map_nil, List.intercalate_cons_cons, List.intercalate_singleton,
      List.append_assoc, List.singleton_append]
    exact .function (by simp [functionCommands]) identifier (twoOperands_print name count)

/-- Commands as source text, one to a line. -/
def print (commands : List Command) : String := "\n".intercalate (commands.map Command.render)

/-- Every line of a printed listing is the print of a command. -/
theorem lines_print {commands : List Command} (nonempty : commands ≠ [])
    (named : ∀ command ∈ commands, command.WellNamed) :
    Text.lines (print commands).toList = commands.map fun command => command.render.toList := by
  obtain ⟨first, rest, rfl⟩ := List.exists_cons_of_ne_nil nonempty
  have tidy : ∀ line ∈ (first :: rest).map fun command => command.render.toList, Text.Tidy line := by
    intro line member
    obtain ⟨command, listed, rfl⟩ := List.mem_map.mp member
    exact (named command listed).tidy_render
  rw [print, String.toList_intercalate, List.map_map]
  exact Text.lines_intercalate tidy

/-- Reading printed commands gives them back, numbered in order. -/
theorem ofSource_print {commands : List Command} (named : ∀ command ∈ commands, command.WellNamed) :
    ofSource (print commands) = .ok (ofCommands commands) := by
  by_cases nonempty : commands = []
  · subst nonempty
    decide +kernel
  have contents : (commands.map fun command => command.render.toList).map Text.content =
      commands.map fun command => command.render.toList := by
    rw [List.map_map]
    apply List.map_congr_left
    intro command member
    exact (named command member).tidy_render.content_eq
  have said : ((commands.map fun command => command.render.toList).zipIdx 1).filter (fun line => line.1 ≠ []) =
      (commands.map fun command => command.render.toList).zipIdx 1 := by
    rw [List.filter_eq_self]
    intro line member
    obtain ⟨command, listed, same⟩ := List.mem_map.mp (List.fst_mem_of_mem_zipIdx member)
    rw [← same]
    exact decide_eq_true (named command listed).tidy_render.nonempty
  rw [ofSource_eq, lines_print nonempty named, contents, said, mapM_numberedCommand_eq_ok_iff, ofCommands,
    List.zipIdx_map, List.forall₂_map_left_iff, List.forall₂_map_right_iff, List.forall₂_same]
  rintro ⟨command, number⟩ member
  exact ⟨rfl, spells_render (named command (List.fst_mem_of_mem_zipIdx member))⟩

private theorem map_line_ofCommands (commands : List Command) :
    (ofCommands commands).map NumberedCommand.line = List.range' 1 commands.length := by
  rw [ofCommands, List.map_map, ← List.zipIdx_map_snd 1 commands]
  rfl

theorem map_command_ofCommands (commands : List Command) :
    (ofCommands commands).map NumberedCommand.command = commands := by
  rw [ofCommands, List.map_map]
  exact List.zipIdx_map_fst 1 commands

end Listing

/-- Units made of commands link as the texts of these commands do. -/
theorem link_ofCommands (options : BuildOptions) {units : List (String × List Command)}
    (named : ∀ unit ∈ units, ∀ command ∈ unit.2, command.WellNamed) :
    link options (units.map fun unit => .ofCommands unit.1 unit.2) =
      linkSources options (units.map fun unit => (unit.1, Listing.print unit.2)) := by
  have read : (units.map fun unit => (unit.1, Listing.print unit.2)).mapM
      (fun source => SourceUnit.ofSource source.1 source.2) =
        .ok (units.map fun unit => .ofCommands unit.1 unit.2) := by
    rw [Runs.mapM_eq_ok_iff, List.forall₂_map_left_iff, List.forall₂_map_right_iff, List.forall₂_same]
    intro unit member
    simp only [SourceUnit.ofSource, Listing.ofSource_print (named unit member), SourceUnit.ofCommands]
  exact (congrArg (· >>= link options) read).symm

/-- Reading inverts printing for commands with identifiers as names, which all commands that are read have, and
units link as their texts do. -/
theorem printing_inverts_reading :
    (∀ commands : List Command, (∀ command ∈ commands, command.WellNamed) →
      ∃ listing, Listing.ofSource (Listing.print commands) = .ok listing ∧
        listing.map NumberedCommand.line = List.range' 1 commands.length ∧
        listing.map NumberedCommand.command = commands) ∧
    (∀ source listing, Listing.ofSource source = .ok listing →
      (∀ numbered ∈ listing, numbered.command.WellNamed) ∧
        ∃ again, Listing.ofSource (Listing.print (listing.map NumberedCommand.command)) = .ok again ∧
          again.map NumberedCommand.command = listing.map NumberedCommand.command) ∧
    ∀ (options : BuildOptions) (units : List (String × List Command)),
      (∀ unit ∈ units, ∀ command ∈ unit.2, command.WellNamed) →
        link options (units.map fun unit => .ofCommands unit.1 unit.2) =
          linkSources options (units.map fun unit => (unit.1, Listing.print unit.2)) := by
  refine ⟨?_, ?_, fun options units => link_ofCommands options⟩
  · intro commands named
    exact ⟨Listing.ofCommands commands, Listing.ofSource_print named, Listing.map_line_ofCommands commands,
      Listing.map_command_ofCommands commands⟩
  · intro source listing read
    have named := Listing.ofSource_wellNamed read
    refine ⟨named, Listing.ofCommands (listing.map NumberedCommand.command), Listing.ofSource_print ?_,
      Listing.map_command_ofCommands _⟩
    simpa using named

/-- The theorem at commands of every shape, with the largest operand and all marks that a name may hold. -/
theorem printing_inverts_reading_shapes :
    let commands : List Command := [.function "Main.f$x" 65535, .push .static 0, .ifGoto "_:9", .arithmetic .lt, .ret]
    (∀ command ∈ commands, command.WellNamed) ∧
      Listing.print commands = "function Main.f$x 65535\npush static 0\nif-goto _:9\nlt\nreturn" ∧
      ∃ listing, Listing.ofSource (Listing.print commands) = .ok listing ∧
        listing.map NumberedCommand.line = [1, 2, 3, 4, 5] ∧ listing.map NumberedCommand.command = commands := by
  intro commands
  have named : ∀ command ∈ commands, ∀ name ∈ command.names, IsIdentifier name := by decide
  exact ⟨named, by decide, printing_inverts_reading.1 commands named⟩

end HackVM
