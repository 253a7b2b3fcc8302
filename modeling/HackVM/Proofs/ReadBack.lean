import HackVM.Assembly.Statement
import HackVM.Proofs.Names

/-! # Reading assembly lines back

The assembler sees only the text of the lines that code generation makes. A comment is nothing to it, a
label line is that label, and the text of an operation is read as that operation, provided that the
names in the lines are symbols. An operand that is no symbol still makes the line an operation, so it
never moves the addresses of other lines.
-/

namespace HackVM

namespace Text

private theorem bne_of_not_mem {mark : Char} {text : List Char} (absent : mark ∉ text) :
    ∀ c ∈ text, (c != mark) = true := by
  intro c member
  rw [bne_iff_ne]
  rintro rfl
  exact absent member

theorem cut?_append {mark : Char} {before after : List Char} (absent : mark ∉ before) :
    cut? mark (before ++ mark :: after) = some (before, after) := by
  have kept := bne_of_not_mem absent
  have cutHere : (mark :: after).takeWhile (· != mark) = [] ∧
      (mark :: after).dropWhile (· != mark) = mark :: after := by simp
  rw [cut?, List.span_eq_takeWhile_dropWhile, List.takeWhile_append_of_pos kept,
    List.dropWhile_append_of_pos kept, cutHere.1, cutHere.2, List.append_nil]

private theorem cut?_eq_none {mark : Char} {text : List Char} (absent : mark ∉ text) : cut? mark text = none := by
  rw [cut?, List.span_eq_takeWhile_dropWhile, List.dropWhile_eq_nil_iff.mpr (bne_of_not_mem absent)]

end Text

private theorem Jump.ofMnemonic?_mnemonic (jump : Jump) : ofMnemonic? jump.mnemonic = some jump := by
  cases jump <;> decide

private theorem Dest.ofLetters?_mnemonic (dest : Dest) : ofLetters? dest.mnemonic.toList = some dest := by
  rcases dest with ⟨_ | _, _ | _, _ | _⟩ <;> decide

private theorem Comp.ofMnemonic?_mnemonic (comp : Comp) : ofMnemonic? comp.mnemonic = some comp := by
  cases comp with
  | read source | not source | neg source | inc source | dec source | add source | dMinus source
  | minusD source | and source | or source => cases source <;> decide
  | _ => decide

namespace Operation

/-- The characters in the text of a computation. -/
def computeChars : List Char := "01-!+&|ADM=;JGTELQNP".toList

private theorem mnemonic_chars (dest : Dest) : ∀ c ∈ dest.mnemonic.toList, c ∈ computeChars ∧ c ≠ '=' := by
  rcases dest with ⟨_ | _, _ | _, _ | _⟩ <;> decide

private theorem comp_chars (comp : Comp) :
    comp.mnemonic.toList ≠ [] ∧ ∀ c ∈ comp.mnemonic.toList, c ∈ computeChars ∧ c ≠ '=' ∧ c ≠ ';' := by
  cases comp with
  | read source | not source | neg source | inc source | dec source | add source | dMinus source
  | minusD source | and source | or source => cases source <;> decide
  | _ => decide

private theorem jump_chars (jump : Jump) : ∀ c ∈ jump.mnemonic.toList, c ∈ computeChars ∧ c ≠ '=' := by
  cases jump <;> decide

/-- The text of an optional jump. -/
def jumpText : Option Jump → List Char
  | none => []
  | some condition => ';' :: condition.mnemonic.toList

private theorem render_compute (dest : Dest) (comp : Comp) (jump : Option Jump) :
    (compute dest comp jump).render.toList =
      (if dest.isEmpty then [] else dest.mnemonic.toList ++ ['=']) ++
        (comp.mnemonic.toList ++ jumpText jump) := by
  cases jump <;> simp only [render, jumpText] <;> split <;> simp

private theorem jumpText_chars (jump : Option Jump) : ∀ c ∈ jumpText jump, c ∈ computeChars ∧ c ≠ '=' := by
  cases jump with
  | none => simp [jumpText]
  | some condition =>
    intro c member
    rcases List.mem_cons.mp member with rfl | member
    · decide
    · exact jump_chars condition c member

/-- A computation is written in the characters of computations, and it is written in at least one. -/
theorem render_compute_chars (dest : Dest) (comp : Comp) (jump : Option Jump) :
    (compute dest comp jump).render.toList ≠ [] ∧
      ∀ c ∈ (compute dest comp jump).render.toList, c ∈ computeChars := by
  rw [render_compute]
  constructor
  · simp [(comp_chars comp).1]
  · intro c member
    simp only [List.mem_append] at member
    rcases member with member | member | member
    · split at member
      · contradiction
      · rcases List.mem_append.mp member with member | member
        · exact (mnemonic_chars dest c member).1
        · rw [List.mem_singleton.mp member]
          decide
    · exact ((comp_chars comp).2 c member).1
    · exact (jumpText_chars jump c member).1

/-- The part of a computation behind its destination is cut at the jump. -/
theorem cut?_jumpText (comp : Comp) (jump : Option Jump) :
    Text.cut? ';' (comp.mnemonic.toList ++ jumpText jump) =
      jump.map fun condition => (comp.mnemonic.toList, condition.mnemonic.toList) := by
  have absent : ';' ∉ comp.mnemonic.toList := fun member => ((comp_chars comp).2 ';' member).2.2 rfl
  cases jump with
  | none =>
    rw [jumpText, List.append_nil, Text.cut?_eq_none absent]
    rfl
  | some condition =>
    rw [jumpText, Text.cut?_append absent]
    rfl

/-- The destination of a computation is what stands before the first equals sign. -/
theorem cut?_render (dest : Dest) (comp : Comp) (jump : Option Jump) :
    (Text.cut? '=' (compute dest comp jump).render.toList).getD
        ([], (compute dest comp jump).render.toList) =
      (dest.mnemonic.toList, comp.mnemonic.toList ++ jumpText jump) := by
  have absent : '=' ∉ comp.mnemonic.toList ++ jumpText jump := by
    intro member
    rcases List.mem_append.mp member with member | member
    · exact ((comp_chars comp).2 '=' member).2.1 rfl
    · exact (jumpText_chars jump '=' member).2 rfl
  rw [render_compute]
  split
  · rename_i empty
    have blank : dest.mnemonic.toList = [] := by
      rcases dest with ⟨_ | _, _ | _, _ | _⟩ <;> simp_all [Dest.isEmpty, Dest.mnemonic]
    rw [List.nil_append, Text.cut?_eq_none absent, blank]
    rfl
  · have letters : '=' ∉ dest.mnemonic.toList := fun member => (mnemonic_chars dest '=' member).2 rfl
    rw [List.append_assoc, List.singleton_append, Text.cut?_append letters]
    rfl

private theorem readCompute_render (dest : Dest) (comp : Comp) (jump : Option Jump) :
    readCompute (compute dest comp jump).render.toList = .ok (compute dest comp jump) := by
  rw [readCompute, cut?_render]
  simp only [cut?_jumpText]
  cases jump with
  | none =>
    simp only [Option.map_none, readJump, Dest.ofLetters?_mnemonic, jumpText, List.append_nil,
      String.ofList_toList, Comp.ofMnemonic?_mnemonic]
    rfl
  | some condition =>
    simp only [Option.map_some, readJump, String.ofList_toList, Jump.ofMnemonic?_mnemonic,
      Dest.ofLetters?_mnemonic, Comp.ofMnemonic?_mnemonic]
    rfl

/-- The operand of an operation can be referred to. -/
def Legible : Operation → Prop
  | symbol name => IsSymbol name
  | number _ | compute _ _ _ => True

/-- The text of an operation reads as the operation. -/
theorem ofText_render (code : Operation) (legible : code.Legible) :
    ofText code.render.toList = .ok code := by
  cases code with
  | number value =>
    have digits : value.decimal.toList.all Char.isDigit = true :=
      List.all_eq_true.mpr fun c member => isDigit_of_mem_repr member
    have text : (number value).render.toList = '@' :: value.decimal.toList := by simp [render]
    rw [text, ofText, if_pos digits, Word.ofDigits?_decimal]
  | symbol name =>
    have text : (symbol name).render.toList = '@' :: name.toList := by simp [render]
    rw [text, ofText, if_neg (by simp [legible.notNumber]), String.ofList_toList]
  | compute dest comp jump =>
    obtain ⟨nonempty, chars⟩ := render_compute_chars dest comp jump
    have reading := readCompute_render dest comp jump
    cases text : (compute dest comp jump).render.toList with
    | nil => exact absurd text nonempty
    | cons c rest =>
      have other : c ≠ '@' := by
        rintro rfl
        exact absurd (chars '@' (by simp [text])) (by decide)
      rw [text] at reading
      rw [← reading, ofText]
      exact fun name same => other (List.cons.inj same).1

private theorem render_solid (code : Operation) (legible : code.Legible) : Text.Solid code.render.toList := by
  cases code with
  | number value =>
    have text : (number value).render.toList = ['@'] ++ value.decimal.toList := by simp [render]
    rw [text]
    exact (Text.Solid.of_forall (by decide)).append (.of_digits fun _ => isDigit_of_mem_repr) (.inl (by simp))
  | symbol name =>
    have text : (symbol name).render.toList = ['@'] ++ name.toList := by simp [render]
    rw [text]
    exact (Text.Solid.of_forall (by decide)).append legible.solid (.inl (by simp))
  | compute dest comp jump =>
    apply Text.Solid.of_forall
    intro c member
    have plain : ∀ c ∈ computeChars, Text.isBlank c = false ∧ c ≠ '/' := by decide
    exact plain c ((render_compute_chars dest comp jump).2 c member)

end Operation

namespace Statement

theorem ofText?_operation {text : List Char} (nonempty : text ≠ []) (open? : text.head? ≠ some '(') :
    ofText? text = some (operation text) := by
  cases text with
  | nil => contradiction
  | cons c rest =>
    rw [ofText?]
    · exact List.cons_ne_nil _ _
    · intro other same
      cases same
      exact open? rfl

theorem ofLine?_comment (text : String) : ofLine? (Line.comment text).render = none := by
  have line : (Line.comment text).render.toList = '/' :: '/' :: ' ' :: text.toList := by
    simp [Line.render]
  rw [ofLine?, line, Text.stripComment]
  rfl

theorem ofLine?_label {name : String} (solid : Text.Solid name.toList) :
    ofLine? (Line.label name).render = some (label name) := by
  have line : (Line.label name).render.toList = ['('] ++ (name.toList ++ [')']) := by simp [Line.render]
  have close : Text.Solid [')'] := .of_forall (by decide)
  have whole : Text.Solid (['('] ++ (name.toList ++ [')'])) :=
    (Text.Solid.of_forall (by decide)).append (solid.append close (.inr (by simp))) (.inl (by simp))
  rw [ofLine?, line, whole.read_eq, List.singleton_append, ofText?]
  simp

theorem ofLine?_operation (code : Operation) (legible : code.Legible) :
    ofLine? (Line.operation code).render = some (operation code.render.toList) := by
  have solid := Operation.render_solid code legible
  rw [ofLine?, Line.render, solid.read_eq]
  cases code with
  | number value => exact ofText?_operation (by simp [Operation.render]) (by simp [Operation.render])
  | symbol name => exact ofText?_operation (by simp [Operation.render]) (by simp [Operation.render])
  | compute dest comp jump =>
    obtain ⟨nonempty, chars⟩ := Operation.render_compute_chars dest comp jump
    refine ofText?_operation nonempty fun head => ?_
    exact absurd (chars '(' (List.mem_of_head? head)) (by decide)

/-- Whatever stands behind the at sign, the line is one operation. -/
theorem ofLine?_symbol (name : String) :
    ∃ text, ofLine? (Line.symbol name).render = some (operation text) := by
  have line : (Line.symbol name).render.toList = '@' :: name.toList := by
    simp [Line.symbol, Line.render, Operation.render]
  refine ⟨'@' :: (Text.stripComment name.toList).filter fun c => !Text.isBlank c, ?_⟩
  have strip : Text.stripComment ('@' :: name.toList) = '@' :: Text.stripComment name.toList := by
    rw [Text.stripComment]
    intro rest same
    cases same
  rw [ofLine?, line, strip, List.filter_cons, if_pos (by decide)]
  exact ofText?_operation (by simp) (by simp)

end Statement

end HackVM
