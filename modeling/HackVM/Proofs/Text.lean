import Mathlib.Data.List.Chain
import HackVM.Text.Lines
import HackVM.Word

/-! # Texts that are read as they stand

Reading an assembly line drops its comment and its blanks. A solid text has neither, so reading
leaves it alone. Solid texts can be joined as long as no two slashes meet at the seam. Decimal
numbers are solid, and the digits of a word give the word back.
-/

namespace HackVM.Text

/-- A statement about the characters of a text is checked on these, not on all characters. -/
instance (priority := high) decidableForallMem (text : List Char) (holds : Char → Prop) [DecidablePred holds] :
    Decidable (∀ c ∈ text, holds c) :=
  List.decidableBAll holds text

/-- A text without blanks in which no comment starts. -/
structure Solid (text : List Char) : Prop where
  noBlank : ∀ c ∈ text, isBlank c = false
  noComment : ¬ ['/', '/'] <:+: text

/-- No comment starts in a text iff no two neighbours are slashes. -/
theorem no_comment_iff_isChain (text : List Char) :
    ¬ ['/', '/'] <:+: text ↔ text.IsChain fun c d => ¬ (c = '/' ∧ d = '/') := by
  rw [List.isChain_iff_forall_rel_of_append_cons_cons]
  constructor
  · rintro free c d before after rfl ⟨rfl, rfl⟩
    exact free ⟨before, after, by simp⟩
  · rintro chain ⟨before, after, rfl⟩
    exact chain (show before ++ ['/', '/'] ++ after = before ++ '/' :: '/' :: after by simp) ⟨rfl, rfl⟩

theorem stripComment_eq_self {text : List Char} (free : ¬ ['/', '/'] <:+: text) :
    stripComment text = text := by
  fun_induction stripComment text with
  | case1 => rfl
  | case2 rest => exact absurd (List.prefix_append ['/', '/'] rest).isInfix free
  | case3 c rest _ ih => rw [ih fun inside => free (List.infix_cons inside)]

/-- Reading a line leaves a solid text alone. -/
theorem Solid.read_eq {text : List Char} (solid : Solid text) :
    (stripComment text).filter (fun c => !isBlank c) = text := by
  rw [stripComment_eq_self solid.noComment, List.filter_eq_self]
  intro c member
  simp [solid.noBlank c member]

/-- A text without blanks and slashes is solid. -/
theorem Solid.of_forall {text : List Char} (plain : ∀ c ∈ text, isBlank c = false ∧ c ≠ '/') :
    Solid text := by
  refine ⟨fun c member => (plain c member).1, ?_⟩
  rintro ⟨before, after, rfl⟩
  exact (plain '/' (by simp)).2 rfl

/-- Solid texts may be joined unless two slashes meet. -/
theorem Solid.append {left right : List Char} (first : Solid left) (second : Solid right)
    (seam : left.getLast? ≠ some '/' ∨ right.head? ≠ some '/') : Solid (left ++ right) := by
  constructor
  · intro c member
    rcases List.mem_append.mp member with member | member
    · exact first.noBlank c member
    · exact second.noBlank c member
  · rw [no_comment_iff_isChain, List.isChain_append]
    refine ⟨(no_comment_iff_isChain _).mp first.noComment, (no_comment_iff_isChain _).mp second.noComment, ?_⟩
    rintro c last d head ⟨rfl, rfl⟩
    exact seam.elim (fun other => other last) (fun other => other head)

/-- No printable ASCII character is blank. -/
theorem isBlank_eq_false_of_printable {c : Char} (low : 33 ≤ c.toNat) (high : c.toNat ≤ 126) :
    isBlank c = false := by
  simp only [isBlank, blankRanges, List.any_cons, List.any_nil]
  grind

theorem toNat_of_isDigit {c : Char} (digit : c.isDigit) : 48 ≤ c.toNat ∧ c.toNat ≤ 57 :=
  Char.isDigit_iff_toNat.mp digit

/-- A run of digits is solid. -/
theorem Solid.of_digits {text : List Char} (digits : ∀ c ∈ text, c.isDigit) : Solid text := by
  apply Solid.of_forall
  intro c member
  have range := toNat_of_isDigit (digits c member)
  refine ⟨isBlank_eq_false_of_printable (by omega) (by omega), ?_⟩
  rintro rfl
  exact absurd range.1 (by decide)

end HackVM.Text

namespace HackVM

theorem isDigit_of_mem_repr {number : Nat} {c : Char} (member : c ∈ number.repr.toList) : c.isDigit := by
  rw [Nat.toList_repr] at member
  exact Nat.isDigit_of_mem_toDigits (by decide) (by decide) member

theorem repr_injective {first second : Nat} (same : first.repr = second.repr) : first = second := by
  have digits := congrArg String.toList same
  rw [Nat.toList_repr, Nat.toList_repr] at digits
  rw [← Nat.ofDigitChars_ten_toDigits (n := first), digits, Nat.ofDigitChars_ten_toDigits]

namespace Word

theorem digitsValue_toDigits (number : Nat) : digitsValue (Nat.toDigits 10 number) = number :=
  Nat.ofDigitChars_eq_foldl.symm.trans Nat.ofDigitChars_ten_toDigits

/-- The decimal text of a word reads as the word. -/
theorem ofDigits?_decimal (word : Word) : ofDigits? word.decimal.toList = some word := by
  have digits : word.decimal.toList.all Char.isDigit = true :=
    List.all_eq_true.mpr fun c member => isDigit_of_mem_repr member
  have nonempty : word.decimal.toList.isEmpty = false := by
    rw [decimal, Nat.toList_repr, List.isEmpty_eq_false_iff]
    exact Nat.toDigits_ne_nil
  have small := word.isLt
  simp only [ofDigits?, digits, nonempty, Bool.not_true, Bool.or_self, Bool.false_eq_true, ↓reduceIte]
  rw [decimal, Nat.toList_repr, digitsValue_toDigits, ofNat?, if_pos small, BitVec.ofNat_toNat, BitVec.setWidth_eq]

end Word

end HackVM
