import Mathlib.Data.List.TakeDrop
import Mathlib.Data.List.TakeWhile
import HackVM.Program
import HackVM.Proofs.Runs
import HackVM.Proofs.Text

/-! # Names

The names in a source text are identifiers. Every name that code generation builds, from identifiers
and from unit names that are solid, is solid and is not a number, so an assembly line can refer to it.
Generated labels that differ in their numbers differ.
-/

namespace HackVM

/-- A nonempty run of name characters that starts with no digit. -/
structure IsIdentifier (name : String) : Prop where
  nonempty : name.toList ≠ []
  chars : ∀ c ∈ name.toList, Listing.isNameChar c = true
  head : name.toList.head?.any Char.isDigit = false

instance (name : String) : Decidable (IsIdentifier name) :=
  decidable_of_iff
    (name.toList ≠ [] ∧ (∀ c ∈ name.toList, Listing.isNameChar c = true) ∧
      name.toList.head?.any Char.isDigit = false)
    ⟨fun ⟨nonempty, chars, head⟩ => ⟨nonempty, chars, head⟩,
      fun name => ⟨name.nonempty, name.chars, name.head⟩⟩

/-- The names of labels and functions in a command. -/
def Command.names : Command → List String
  | label name | goto name | ifGoto name | function name _ | call name _ => [name]
  | arithmetic _ | push _ _ | pop _ _ | ret => []

/-- All names in a command are identifiers. -/
def Command.WellNamed (command : Command) : Prop := ∀ name ∈ command.names, IsIdentifier name

private theorem Command.WellNamed.of_none {command : Command} (none : command.names = []) : command.WellNamed := by
  simp [WellNamed, none]

theorem Command.WellNamed.of_one {command : Command} {name : String} (one : command.names = [name])
    (identifier : IsIdentifier name) : command.WellNamed := by
  simpa [WellNamed, one] using identifier

namespace Listing

private theorem takeRun?_eq_some {accepts : Char → Bool} {text run rest : List Char}
    (success : takeRun? accepts text = some (run, rest)) :
    run ≠ [] ∧ run = text.takeWhile accepts := by
  simp only [takeRun?, List.span_eq_takeWhile_dropWhile] at success
  split at success
  · contradiction
  · cases success
    simp_all

private theorem nameOperand?_isIdentifier {text rest : List Char} {name : String}
    (success : nameOperand? text = some (name, rest)) : IsIdentifier name := by
  simp only [nameOperand?, bind, Option.bind_eq_some_iff] at success
  obtain ⟨text, -, ⟨run, after⟩, taken, success⟩ := success
  dsimp only at success
  split_ifs at success with digit
  cases success
  obtain ⟨nonempty, rfl⟩ := takeRun?_eq_some taken
  refine ⟨?_, ?_, ?_⟩
  · simpa using nonempty
  · intro c member
    rw [String.toList_ofList] at member
    exact List.mem_takeWhile_imp member
  · rw [String.toList_ofList]
    exact Bool.eq_false_iff.mpr digit

theorem complete?_eq_some_iff {α : Type} {reading : Option (α × List Char)} {value : α} :
    complete? reading = some value ↔ reading = some (value, []) := by
  rcases reading with _ | ⟨found, _ | ⟨c, rest⟩⟩ <;> simp [complete?]

private theorem name?_isIdentifier {text : List Char} {name : String} (success : name? text = some name) :
    IsIdentifier name :=
  nameOperand?_isIdentifier (complete?_eq_some_iff.mp success)

private theorem nameAndNumber?_isIdentifier {text : List Char} {name : String} {number : Word}
    (success : nameAndNumber? text = some (name, number)) : IsIdentifier name := by
  simp only [nameAndNumber?, bind, Option.bind_eq_some_iff] at success
  obtain ⟨⟨found, rest⟩, taken, number, -, same⟩ := success
  cases same
  exact nameOperand?_isIdentifier taken

/-- Every name in a command that was read is an identifier. -/
theorem command_wellNamed {line : List Char} {result : Command}
    (success : command line = .ok result) : result.WellNamed := by
  simp only [command] at success
  split at success
  case h_1 | h_2 =>
    cases operands : wordAndNumber? (Text.splitWord line).2 with
    | none => simp [operands, bind, Except.bind] at success
    | some found =>
      simp only [operands, bind, Except.bind] at success
      split at success
      · cases success
        exact .of_none rfl
      · contradiction
  case h_3 | h_4 | h_5 =>
    cases operand : name? (Text.splitWord line).2 with
    | none => simp [operand] at success
    | some name =>
      simp only [operand] at success
      cases success
      exact .of_one rfl (name?_isIdentifier operand)
  case h_6 | h_7 =>
    cases operands : nameAndNumber? (Text.splitWord line).2 with
    | none => simp [operands] at success
    | some found =>
      simp only [operands] at success
      cases success
      exact .of_one rfl (nameAndNumber?_isIdentifier operands)
  case h_8 =>
    split_ifs at success
    cases success
    exact .of_none rfl
  case h_9 =>
    split at success
    · split_ifs at success
      cases success
      exact .of_none rfl
    · contradiction

end Listing

/-- All names in the commands of a unit are identifiers. -/
def SourceUnit.WellNamed (unit : SourceUnit) : Prop :=
  ∀ numbered ∈ unit.listing, numbered.command.WellNamed

theorem Listing.ofSource_wellNamed {source : String} {listing : Listing}
    (success : ofSource source = .ok listing) : ∀ numbered ∈ listing, numbered.command.WellNamed := by
  intro numbered member
  obtain ⟨line, -, read⟩ := Runs.exists_of_mem_mapM success member
  simp only [numberedCommand] at read
  split at read
  · cases read
    exact command_wellNamed (by assumption)
  · contradiction

theorem SourceUnit.ofSource_wellNamed {name source : String} {unit : SourceUnit}
    (success : ofSource name source = .ok unit) : unit.name = name ∧ unit.WellNamed := by
  simp only [ofSource] at success
  split at success
  · cases success
    exact ⟨rfl, Listing.ofSource_wellNamed (by assumption)⟩
  · contradiction

/-- Units read from named sources that are solid are solid and well named. -/
theorem SourceUnit.ofSources_wellNamed {sources : List (String × String)} {units : List SourceUnit}
    (read : sources.mapM (fun (name, source) => SourceUnit.ofSource name source) = .ok units)
    (solid : ∀ source ∈ sources, Text.Solid source.1.toList) :
    ∀ unit ∈ units, Text.Solid unit.name.toList ∧ unit.WellNamed := by
  intro unit member
  obtain ⟨⟨name, source⟩, present, success⟩ := Runs.exists_of_mem_mapM read member
  obtain ⟨rfl, named⟩ := SourceUnit.ofSource_wellNamed success
  exact ⟨solid _ present, named⟩

/-- A name that an assembly line can refer to: solid, and not a number. -/
structure IsSymbol (name : String) : Prop where
  solid : Text.Solid name.toList
  notNumber : name.toList.all Char.isDigit = false

theorem Listing.toNat_of_isNameChar {c : Char} (accepted : isNameChar c = true) :
    33 ≤ c.toNat ∧ c.toNat ≤ 126 ∧ c ≠ '/' := by
  have other : c.toNat ≠ 47 → c ≠ '/' := by
    rintro differs rfl
    exact differs rfl
  simp only [isNameChar, Bool.or_eq_true, beq_iff_eq] at accepted
  rcases accepted with (((alphanumeric | rfl) | rfl) | rfl) | rfl
  · obtain letter | digit := Bool.or_eq_true_iff.mp alphanumeric
    · obtain upper | lower := Bool.or_eq_true_iff.mp letter
      · have range : 65 ≤ c.toNat ∧ c.toNat ≤ 90 := of_decide_eq_true upper
        exact ⟨by omega, by omega, other (by omega)⟩
      · obtain ⟨low, high⟩ := Bool.and_eq_true_iff.mp lower
        have range : 97 ≤ c.toNat ∧ c.toNat ≤ 122 := ⟨of_decide_eq_true low, of_decide_eq_true high⟩
        exact ⟨by omega, by omega, other (by omega)⟩
    · have range := Text.toNat_of_isDigit digit
      exact ⟨by omega, by omega, other (by omega)⟩
  all_goals decide

theorem IsIdentifier.solid {name : String} (identifier : IsIdentifier name) : Text.Solid name.toList := by
  apply Text.Solid.of_forall
  intro c member
  obtain ⟨low, high, other⟩ := Listing.toNat_of_isNameChar (identifier.chars c member)
  exact ⟨Text.isBlank_eq_false_of_printable low high, other⟩

theorem IsIdentifier.isSymbol {name : String} (identifier : IsIdentifier name) : IsSymbol name := by
  refine ⟨identifier.solid, ?_⟩
  cases chars : name.toList with
  | nil => exact absurd chars identifier.nonempty
  | cons c rest =>
    have head := identifier.head
    simp only [chars, List.head?_cons, Option.any_some] at head
    simp [head]

/-- A solid text, a mark that is neither blank, slash nor digit, and a solid text make a symbol. -/
theorem IsSymbol.of_mark {name : String} {left right : List Char} (mark : Char)
    (text : name.toList = left ++ mark :: right) (first : Text.Solid left) (second : Text.Solid right)
    (printable : Text.isBlank mark = false) (noSlash : mark ≠ '/') (noDigit : mark.isDigit = false) :
    IsSymbol name := by
  have marked : Text.Solid [mark] := by
    apply Text.Solid.of_forall
    simpa using ⟨printable, noSlash⟩
  have tail : Text.Solid ([mark] ++ right) := marked.append second (.inl (by simpa using noSlash))
  constructor
  · rw [text]
    exact first.append tail (.inr (by simpa using noSlash))
  · rw [text]
    simp [noDigit]

theorem isSymbol_staticSymbol {unit : String} (solid : Text.Solid unit.toList) (index : Word) :
    IsSymbol (staticSymbol unit index) := by
  have digits : Text.Solid index.decimal.toList := .of_digits fun _ => isDigit_of_mem_repr
  exact .of_mark '.' (by simp [staticSymbol]) solid digits (by decide) (by decide) (by decide)

theorem isSymbol_inScope {scope name : String} (outer : Text.Solid scope.toList)
    (inner : Text.Solid name.toList) : IsSymbol (Label.inScope scope name) :=
  .of_mark '$' (by simp [Label.inScope]) outer inner (by decide) (by decide) (by decide)

theorem isSymbol_generated {owner : String} (solid : Text.Solid owner.toList)
    (purpose : Label.Purpose) (number : Nat) : IsSymbol (Label.generated owner purpose number) := by
  have word : Text.Solid (purpose.name.toList ++ ['_']) := by
    apply Text.Solid.of_forall
    cases purpose <;> decide
  have rest : Text.Solid ((purpose.name.toList ++ ['_']) ++ number.repr.toList) :=
    word.append (.of_digits fun _ => isDigit_of_mem_repr) (.inl (by simp))
  exact .of_mark ':' (by simp [Label.generated]) solid rest (by decide) (by decide) (by decide)

/-- Generated labels with different numbers differ. -/
theorem Label.generated_injective {owner : String} {purpose : Purpose} {first second : Nat}
    (same : generated owner purpose first = generated owner purpose second) : first = second := by
  have texts := congrArg String.toList same
  simp only [generated, String.toList_append, List.append_cancel_left_eq] at texts
  exact repr_injective (String.toList_injective texts)

end HackVM
