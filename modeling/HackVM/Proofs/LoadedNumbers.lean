import HackVM.Lowering.Guarded
import HackVM.Proofs.PredefinedNames
import HackVM.Proofs.References
import HackVM.Proofs.Sessions

/-! # Loaded numbers

A line that loads a number has room for 15 bits, and a name that consists of digits would be read as a number. Every
number that the code of a command loads is an operand of the command or the size of a frame, in full. Nothing is cut
off on the way: where lowering adds or subtracts words, the result fits. To say so, lowering is repeated with a check
in front of each sum and difference, and comes to the same result. No name that code refers to is spelled as a number,
whatever the name of the unit is. The opening call loads the first cell of the stack and the size of a frame.
-/

namespace HackVM

/-- With the frame, the arguments that a call may pass fit a loaded number. -/
theorem Lowering.frame_fits {arguments : Word} (few : arguments ≤ maxArguments) :
    arguments.toNat + Template.frameSize.toNat ≤ 32767 := by
  have most : maxArguments.toNat = 32762 := rfl
  have frame : Template.frameSize.toNat = 5 := rfl
  have bound := BitVec.le_def.mp few
  omega

/-! ## Checked sums -/

namespace Guarded

variable {α β : Type}

private theorem ofLowering_pure (value : α) : ofLowering (pure value) = pure value := rfl

private theorem ofLowering_get : ofLowering get = get := rfl

private theorem ofLowering_bind (step : Lowering α) (next : α → Lowering β) :
    ofLowering (step >>= next) = ofLowering step >>= fun value => ofLowering (next value) := by
  funext generator
  simp only [ofLowering, EStateM.adaptExcept, bind, EStateM.bind]
  cases step generator <;> rfl

private theorem checkDifference_of_le {left right : Word} (fits : right.toNat ≤ left.toNat) :
    checkDifference left right = pure () :=
  if_pos fits

private theorem checkSum_of_lt {left right : Word} (fits : left.toNat + right.toNat < 65536) :
    checkSum left right = pure () :=
  if_pos fits

/-- The cell of a temporary that can be located is a word. -/
theorem locate_eq (segment : Segment) (index : Word) :
    locate segment index = ofLowering (Lowering.locate segment index) := by
  funext generator
  simp only [locate, ofLowering, EStateM.adaptExcept, bind, EStateM.bind]
  cases located : Lowering.locate segment index generator with
  | error fault stopped => rfl
  | ok location next =>
    dsimp only
    split_ifs with temp
    · obtain ⟨bounded, -⟩ := Lowering.locate_eq_ok located
      have small : index ≤ 7 := bounded 7 (by rw [temp]; rfl)
      rw [checkSum_of_lt (by rw [Segment.tempBase]; bv_omega)]
      rfl
    · rfl

private theorem pop_eq (segment : Segment) (index : Word) :
    pop segment index = ofLowering (Lowering.pop segment index) := by
  rw [pop, Lowering.pop, locate_eq]
  split_ifs
  · rfl
  · dsimp only
    rw [ofLowering_bind]
    congr 1
    funext location
    cases location <;> rfl

/-- A call that is not refused for its arguments has room for the frame. -/
theorem call_eq (name : String) (arguments : Word) :
    call name arguments = ofLowering (Lowering.call name arguments) := by
  have limit : Template.frameSize.toNat ≤ (32767 : Word).toNat := by simp [Template.frameSize]
  rw [call, Lowering.call, checkDifference_of_le limit, pure_bind]
  split_ifs with large
  · rfl
  · have size := Lowering.frame_fits (BitVec.not_lt.mp large)
    have sum := checkSum_of_lt (Nat.lt_of_le_of_lt size (by decide))
    simp only [ofLowering_bind, ofLowering_get, ofLowering_pure, sum, pure_bind]

private theorem code_eq (command : Command) : code command = ofLowering (Lowering.code command) := by
  cases command with
  | push segment index => rw [code, locate_eq, Lowering.code, Lowering.push, ofLowering_bind]; rfl
  | pop segment index => exact pop_eq segment index
  | call name arguments => exact call_eq name arguments
  | arithmetic | label | goto | ifGoto | function | ret => rfl

/-- Lowering with checks is lowering. -/
theorem command_eq (command : Command) : Guarded.command command = ofLowering (Lowering.command command) := by
  rw [Guarded.command, code_eq, Lowering.command, ofLowering_bind]
  rfl

private theorem bootstrap_eq (entry : String) (generator : Generator) :
    bootstrap entry generator = .ok (generator.bootstrap entry).1 (generator.bootstrap entry).2 := by
  rw [bootstrap, checkSum_of_lt (by decide), pure_bind]
  rfl

end Guarded

/-! ## Numbers in the text of code -/

/-- The number in a line of text that loads one: nothing but digits stands behind the mark. -/
def Text.loadedNumber? (line : String) : Option Nat :=
  match line.toList with
  | '@' :: digits => if digits.all Char.isDigit then some (Word.digitsValue digits) else none
  | _ => none

namespace Line

/-- The number that a line loads. -/
def number? : Line → Option Nat
  | operation (.number value) => some value.toNat
  | operation (.symbol _) | operation (.compute ..) | comment _ | label _ => none

/-- The numbers that lines load, in order. -/
def numbers (lines : List Line) : List Nat := lines.filterMap number?

private theorem loadedNumber?_symbol {name : String} (named : name.toList.all Char.isDigit = false) :
    Text.loadedNumber? (symbol name).render = none := by
  simp [Text.loadedNumber?, symbol, render, Operation.render, named]

/-- Only a line that loads a number is spelled so, unless a name is. -/
theorem loadedNumber?_render {line : Line} (named : ∀ name ∈ line.symbol?, name.toList.all Char.isDigit = false) :
    Text.loadedNumber? line.render = line.number? := by
  cases line with
  | comment text => simp [Text.loadedNumber?, render, number?]
  | label name => simp [Text.loadedNumber?, render, number?]
  | operation code =>
    cases code with
    | number value =>
      have digits : value.decimal.toList.all Char.isDigit = true :=
        List.all_eq_true.mpr fun c member => isDigit_of_mem_repr member
      have text : ("@" ++ value.decimal).toList = '@' :: value.decimal.toList := by simp
      simp only [Text.loadedNumber?, render, Operation.render, text, digits, if_true, number?]
      rw [Word.decimal, Nat.toList_repr, Word.digitsValue_toDigits]
    | symbol name => exact loadedNumber?_symbol (named name rfl)
    | compute dest comp jump =>
      obtain ⟨-, chars⟩ := Operation.render_compute_chars dest comp jump
      rw [number?, Text.loadedNumber?, render]
      split
      · next digits text =>
        have mark : '@' ∈ Operation.computeChars := chars '@' (by rw [text]; exact List.mem_cons_self ..)
        contradiction
      · rfl

private theorem filterMap_loadedNumber?_render {lines : List Line}
    (named : ∀ name ∈ symbols lines, name.toList.all Char.isDigit = false) :
    (lines.map render).filterMap Text.loadedNumber? = numbers lines := by
  rw [List.filterMap_map, numbers]
  apply List.filterMap_congr
  intro line member
  exact loadedNumber?_render fun name refers => named name (List.mem_filterMap.mpr ⟨line, member, refers⟩)

end Line

/-- The numbers that the code of a command loads: a constant, an offset, or the size of a frame with the arguments
of a call. -/
def Command.immediates : Command → List Nat
  | push segment index | pop segment index =>
    match segment with
    | .constant | .locals | .argument | .this | .that => [index.toNat]
    | .static | .pointer | .temp => []
  | call _ arguments => [arguments.toNat + 5]
  | ret => [5]
  | arithmetic _ | label _ | goto _ | ifGoto _ | function _ _ => []

/-- Operands that are in range fit 15 bits. -/
theorem Command.Admitted.immediates_le {command : Command} (admitted : command.Admitted) :
    ∀ value ∈ command.immediates, value ≤ 32767 := by
  cases command with
  | push segment index =>
    cases segment with
    | constant | locals | argument | this | that =>
      intro value own
      rw [List.mem_singleton.mp own]
      exact BitVec.le_def.mp (admitted 32767 rfl)
    | static | pointer | temp => simp [immediates]
  | pop segment index =>
    cases segment with
    | constant | locals | argument | this | that =>
      intro value own
      rw [List.mem_singleton.mp own]
      exact BitVec.le_def.mp (admitted.2 32767 rfl)
    | static | pointer | temp => simp [immediates]
  | call name arguments =>
    intro value own
    rw [List.mem_singleton.mp own]
    exact Lowering.frame_fits admitted
  | ret => simp [immediates]
  | arithmetic | label | goto | ifGoto | function => simp [immediates]

private theorem Template.numbers_function (name : String) (locals : Word) :
    Line.numbers (function name locals) = [] := by
  rw [Line.numbers, List.filterMap_eq_nil_iff]
  intro line member
  rcases List.mem_cons.mp member with rfl | member
  · rfl
  · obtain ⟨push, repeated, member⟩ := List.mem_flatten.mp member
    rw [List.eq_of_mem_replicate repeated] at member
    simp only [List.mem_cons, List.not_mem_nil, or_false] at member
    rcases member with rfl | rfl | rfl | rfl <;> rfl

/-- The code of a command loads the command's numbers. -/
theorem Site.numbers_code {site : Site} (admitted : site.command.Admitted) :
    Line.numbers site.code = site.command.immediates := by
  obtain ⟨unit, function, number, command⟩ := site
  cases command with
  | arithmetic operator => cases operator <;> rfl
  | push segment index => cases segment <;> rfl
  | pop segment index =>
    cases segment with
    | constant => exact absurd rfl admitted.1
    | locals | static | argument | this | that | pointer | temp => rfl
  | function name locals => exact Template.numbers_function name locals
  | call name arguments =>
    have size := Lowering.frame_fits admitted
    have exact_sum : (arguments + Template.frameSize).toNat = arguments.toNat + 5 := by
      rw [BitVec.toNat_add, Nat.mod_eq_of_lt (Nat.lt_of_le_of_lt size (by decide))]
      rfl
    exact congrArg (fun value => [value]) exact_sum
  | label | goto | ifGoto | ret => rfl

private theorem Site.numbers_block (annotate : Bool) (site : Site) :
    Line.numbers (site.block annotate) = Line.numbers site.code := by
  rw [block]
  split <;> rfl

/-- A name is no number if one of its characters is no digit. -/
theorem Text.all_isDigit_eq_false {text : List Char} {mark : Char} (held : mark ∈ text)
    (other : mark.isDigit = false) : text.all Char.isDigit = false := by
  rw [List.all_eq_false]
  exact ⟨mark, held, by simp [other]⟩

private theorem Image.not_number_of_mem_predefined {name : String} (known : name ∈ predefined) :
    name.toList.all Char.isDigit = false := by
  rw [predefined, Std.TreeMap.mem_ofList, List.contains_iff_mem] at known
  revert name
  decide

/-- No name that the code of a command refers to is spelled as a number. -/
theorem Site.symbols_not_number {site : Site} (admitted : site.command.Admitted) (named : site.command.WellNamed) :
    ∀ name ∈ Line.symbols site.code, name.toList.all Char.isDigit = false := by
  intro name refers
  have mentioned : ∀ name ∈ site.command.names, name.toList.all Char.isDigit = false :=
    fun name member => (named name member).isSymbol.notNumber
  rcases symbol_cases admitted refers with predefined | label | static | target
  · exact Image.not_number_of_mem_predefined predefined
  · rcases label_cases label with ⟨purpose, rfl⟩ | ⟨own, -, rfl⟩ | ⟨locals, function⟩
    · exact @Text.all_isDigit_eq_false _ ':' (by simp [generated, Label.generated]) (by decide)
    · exact Text.all_isDigit_eq_false (site.mark_mem_labelName own) (by decide)
    · exact mentioned name (by simp [function, Command.names])
  · obtain ⟨index, -, -, rfl⟩ := exists_use_of_mem_statics static
    exact @Text.all_isDigit_eq_false _ '.' (by simp [staticSymbol]) (by decide)
  · rw [targets] at target
    split at target
    case h_1 own _ | h_2 own _ =>
      rw [List.mem_singleton.mp target]
      exact Text.all_isDigit_eq_false (site.mark_mem_labelName own) (by decide)
    case h_3 own arguments call =>
      rw [List.mem_singleton.mp target]
      exact mentioned own (by simp [call, Command.names])
    case h_4 => contradiction

private theorem Generator.symbols_bootstrap (generator : Generator) (entry : String) :
    Line.symbols (generator.bootstrap entry).1 = "SP" ::
      Line.symbols (Template.call entry 0 (Label.generated bootstrapOwner .returnPoint generator.returnNumber)) := by
  rw [bootstrap]
  cases generator.annotate <;> rfl

/-- Neither is one that the opening call refers to. -/
theorem Generator.bootstrap_symbols_not_number (generator : Generator) {entry : String} (named : IsIdentifier entry) :
    ∀ name ∈ Line.symbols (generator.bootstrap entry).1, name.toList.all Char.isDigit = false := by
  have cells : ∀ name ∈ Template.cells, name.toList.all Char.isDigit = false := by decide
  rw [generator.symbols_bootstrap, List.forall_mem_cons]
  refine ⟨by decide, fun name refers => ?_⟩
  rcases List.mem_cons.mp (Template.symbols_call _ _ _ refers) with rfl | refers
  · exact @Text.all_isDigit_eq_false _ ':' (by simp [Label.generated]) (by decide)
  rcases List.mem_cons.mp refers with rfl | cell
  · exact named.isSymbol.notNumber
  · exact cells name cell

private theorem Generator.numbers_bootstrap (generator : Generator) (entry : String) :
    Line.numbers (generator.bootstrap entry).1 = [256, 5] := by
  rw [bootstrap]
  cases generator.annotate <;> rfl

/-- Sums and differences in lowering are words, and every number that code loads is an operand in full and fits the
load. -/
theorem loaded_numbers_are_operands (generator : Generator) :
    (∀ command : Command, command.WellNamed →
      Guarded.command command generator = Guarded.ofLowering (Lowering.command command) generator ∧
        ∀ lines next, Lowering.command command generator = .ok lines next →
          (lines.map Line.render).filterMap Text.loadedNumber? = command.immediates ∧
            (∀ value ∈ command.immediates, value ≤ 32767) ∧
            ∀ name ∈ Line.symbols lines, Text.loadedNumber? (Line.symbol name).render = none) ∧
      ∀ entry, IsIdentifier entry →
        Guarded.bootstrap entry generator = .ok (generator.bootstrap entry).1 (generator.bootstrap entry).2 ∧
          ((generator.bootstrap entry).1.map Line.render).filterMap Text.loadedNumber? = [256, 5] ∧
          ∀ name ∈ Line.symbols (generator.bootstrap entry).1, Text.loadedNumber? (Line.symbol name).render = none := by
  refine ⟨fun command named => ⟨?_, fun lines next success => ?_⟩, fun entry named => ⟨?_, ?_, ?_⟩⟩
  · rw [Guarded.command_eq]
  · obtain ⟨lowers, rfl⟩ := Lowering.command_lowers success
    have plain : ∀ name ∈ Line.symbols ((generator.site command).block generator.annotate),
        name.toList.all Char.isDigit = false := by
      rw [Site.symbols_block]
      exact Site.symbols_not_number lowers.admitted named
    refine ⟨?_, lowers.admitted.immediates_le, fun name refers => Line.loadedNumber?_symbol (plain name refers)⟩
    rw [Line.filterMap_loadedNumber?_render plain, Site.numbers_block, Site.numbers_code lowers.admitted]
    rfl
  · exact Guarded.bootstrap_eq entry generator
  · rw [Line.filterMap_loadedNumber?_render (generator.bootstrap_symbols_not_number named), generator.numbers_bootstrap]
  · intro name refers
    exact Line.loadedNumber?_symbol (generator.bootstrap_symbols_not_number named name refers)

theorem loaded_numbers_are_operands_digitUnit :
    (Command.call "f" 32762).WellNamed ∧
      ∃ lines next, Lowering.command (.call "f" 32762) { unit := "40000" } = .ok lines next ∧
        (lines.map Line.render).filterMap Text.loadedNumber? = [32767] := by
  have named : (Command.call "f" 32762).WellNamed := .of_one rfl (by decide)
  obtain ⟨lines, next, success⟩ : ∃ lines next,
      Lowering.command (.call "f" 32762) { unit := "40000" } = .ok lines next := ⟨_, _, rfl⟩
  obtain ⟨-, loaded⟩ := (loaded_numbers_are_operands { unit := "40000" }).1 _ named
  exact ⟨named, lines, next, success, (loaded lines next success).1⟩

end HackVM
