import Mathlib.Data.List.Forall2
import Mathlib.Data.List.TakeDrop
import Mathlib.Data.List.TakeWhile
import HackVM.Proofs.Text

/-! # What a line says

A text falls into lines at its line feeds, a line ends where its first comment starts, and blanks at
its ends do not count. Each of these three cuts is stated here as a relation between a text and its
parts, which holds of one result only: the one that is computed.
-/

namespace HackVM.Text

/-- The first character behind a run is not of the class. -/
theorem head?_dropWhile {accepts : Char → Bool} {text : List Char} :
    ∀ c ∈ (text.dropWhile accepts).head?, accepts c = false := by
  intro c head
  have stops := List.head?_dropWhile_not accepts text
  rwa [head] at stops

/-- A longest leading run of a class and the rest. -/
theorem span_eq_iff {accepts : Char → Bool} {text run rest : List Char} :
    text.span accepts = (run, rest) ↔
      text = run ++ rest ∧ (∀ c ∈ run, accepts c = true) ∧ ∀ c ∈ rest.head?, accepts c = false := by
  rw [List.span_eq_takeWhile_dropWhile, Prod.mk.injEq]
  constructor
  · rintro ⟨rfl, rfl⟩
    exact ⟨List.takeWhile_append_dropWhile.symm, fun c => List.mem_takeWhile_imp, head?_dropWhile⟩
  · rintro ⟨rfl, accepted, stops⟩
    rw [List.takeWhile_append_of_pos accepted, List.dropWhile_append_of_pos accepted]
    cases rest with
    | nil => simp
    | cons c rest =>
      have stop : accepts c = false := stops c rfl
      simp [stop]

private theorem pieces_cons_self (mark : Char) (rest : List Char) :
    pieces mark (mark :: rest) = [] :: pieces mark rest := by
  rw [pieces, List.foldr_cons, if_pos rfl]
  rfl

private theorem pieces_cons_of_ne {mark c : Char} (other : c ≠ mark) {rest piece : List Char}
    {others : List (List Char)}
    (split : pieces mark rest = piece :: others) : pieces mark (c :: rest) = (c :: piece) :: others := by
  rw [pieces] at split
  rw [pieces, List.foldr_cons, if_neg other, split]

/-- Cutting a text at a character is the splitting of lists. -/
theorem pieces_eq_splitOn (mark : Char) (text : List Char) : pieces mark text = text.splitOn mark := by
  induction text with
  | nil => rfl
  | cons c rest ih =>
    rw [List.splitOn_eq_splitOnP, List.splitOnP_cons_eq_if_modifyHead, ← List.splitOn_eq_splitOnP]
    simp only [beq_iff_eq]
    split_ifs with same
    · rw [same, pieces_cons_self, ih]
    · cases split : rest.splitOn mark with
      | nil => exact absurd split (List.splitOnP_ne_nil _ _)
      | cons piece others => exact pieces_cons_of_ne same (ih.trans split)

theorem pieces_of_not_mem {mark : Char} {text : List Char} (free : mark ∉ text) :
    pieces mark text = [text] := by
  rw [pieces_eq_splitOn, List.splitOn_eq_splitOnP]
  apply List.splitOnP_eq_singleton
  intro c member
  exact beq_false_of_ne fun same => free (same ▸ member)

private theorem pieces_append {mark : Char} {piece : List Char} (free : mark ∉ piece) (rest : List Char) :
    pieces mark (piece ++ mark :: rest) = piece :: pieces mark rest := by
  rw [pieces_eq_splitOn, pieces_eq_splitOn, List.splitOn_eq_splitOnP]
  apply List.splitOnP_append_cons_of_forall_mem
  · intro c member
    exact beq_false_of_ne fun same => free (same ▸ member)
  · exact beq_self_eq_true mark

theorem pieces_ne_nil (mark : Char) (text : List Char) : pieces mark text ≠ [] := by
  rw [pieces_eq_splitOn]
  exact List.splitOnP_ne_nil _ _

/-- The lines of a text. A line feed ends a line, together with a carriage return right before it, and
the last line ends with the text. -/
inductive SplitsInto : List Char → List (List Char) → Prop where
  | last {line : List Char} (noFeed : '\n' ∉ line) : SplitsInto line [line]
  | feed {line rest : List Char} {lines : List (List Char)} (noFeed : '\n' ∉ line)
      (noReturn : line.getLast? ≠ some '\r') (later : SplitsInto rest lines) :
      SplitsInto (line ++ '\n' :: rest) (line :: lines)
  | returnFeed {line rest : List Char} {lines : List (List Char)} (noFeed : '\n' ∉ line)
      (later : SplitsInto rest lines) : SplitsInto (line ++ '\r' :: '\n' :: rest) (line :: lines)

theorem lines_of_not_mem {text : List Char} (noFeed : '\n' ∉ text) : lines text = [text] := by
  simp [lines, pieces_of_not_mem noFeed]

theorem lines_append {line : List Char} (noFeed : '\n' ∉ line) (rest : List Char) :
    lines (line ++ '\n' :: rest) = dropReturn line :: lines rest := by
  have more := pieces_ne_nil '\n' rest
  simp only [lines, pieces_append noFeed]
  rw [List.dropLast_cons_of_ne_nil more, List.getLast?_cons_of_ne_nil more, List.map_cons, List.cons_append]

theorem dropReturn_of_ne {line : List Char} (noReturn : line.getLast? ≠ some '\r') : dropReturn line = line :=
  if_neg noReturn

theorem dropReturn_concat (line : List Char) : dropReturn (line ++ ['\r']) = line := by
  simp [dropReturn]

/-- Every text splits into its lines. -/
theorem splitsInto_lines (text : List Char) : SplitsInto text (lines text) := by
  -- The rest after the first line feed is shorter than the text.
  induction size : text.length using Nat.strong_induction_on generalizing text with
  | _ size ih =>
    by_cases feed : '\n' ∈ text
    · obtain ⟨line, rest, rfl, noFeed⟩ := List.eq_append_cons_of_mem feed
      have later : SplitsInto rest (lines rest) := by
        apply ih rest.length _ rest rfl
        simp only [List.length_append, List.length_cons] at size
        omega
      rw [lines_append noFeed]
      by_cases ends : line.getLast? = some '\r'
      · obtain ⟨shorter, rfl⟩ := List.getLast?_eq_some_iff.mp ends
        have noFeed : '\n' ∉ shorter := fun member => noFeed (List.mem_append_left _ member)
        rw [dropReturn_concat, List.append_assoc]
        exact .returnFeed noFeed later
      · rw [dropReturn_of_ne ends]
        exact .feed noFeed ends later
    · rw [lines_of_not_mem feed]
      exact .last feed

theorem splitsInto_iff {text : List Char} {parts : List (List Char)} :
    SplitsInto text parts ↔ parts = lines text := by
  constructor
  · intro split
    induction split with
    | last noFeed => rw [lines_of_not_mem noFeed]
    | feed noFeed noReturn later ih => rw [lines_append noFeed, dropReturn_of_ne noReturn, ih]
    | @returnFeed line rest parts noFeed later ih =>
      have noFeed : '\n' ∉ line ++ ['\r'] := by simpa using noFeed
      have whole : line ++ '\r' :: '\n' :: rest = (line ++ ['\r']) ++ '\n' :: rest := by simp
      rw [whole, lines_append noFeed, dropReturn_concat, ih]
  · rintro rfl
    exact splitsInto_lines text

/-- The part of a line before its first `//`, which is the whole line if there is none. -/
inductive BeforeComment (line : List Char) : List Char → Prop where
  | whole (free : ¬ ['/', '/'] <:+: line) : BeforeComment line line
  | cut {before comment : List Char} (line_eq : line = before ++ '/' :: '/' :: comment)
      (first : ¬ ['/', '/'] <:+: before ++ ['/']) : BeforeComment line before

private theorem stripComment_append {before : List Char} (first : ¬ ['/', '/'] <:+: before ++ ['/'])
    (comment : List Char) : stripComment (before ++ '/' :: '/' :: comment) = before := by
  induction before with
  | nil => rfl
  | cons c rest ih =>
    have step : stripComment (c :: (rest ++ '/' :: '/' :: comment)) =
        c :: stripComment (rest ++ '/' :: '/' :: comment) := by
      -- Otherwise the comment would start with `c` already.
      apply stripComment.eq_3
      rintro after rfl starts
      apply first
      cases rest with
      | nil => exact List.infix_rfl
      | cons d rest =>
        obtain ⟨rfl, -⟩ := List.cons.inj starts
        exact (List.prefix_append ['/', '/'] (rest ++ ['/'])).isInfix
    rw [List.cons_append, step, ih fun inside => first (List.infix_cons inside)]

/-- No comment starts with the first character if the second is not a slash as well. -/
theorem no_comment_cons {c : Char} {rest : List Char} (other : c = '/' → rest.head? ≠ some '/')
    (free : ¬ ['/', '/'] <:+: rest) : ¬ ['/', '/'] <:+: c :: rest := by
  intro inside
  rcases List.infix_cons_iff.mp inside with ⟨after, same⟩ | later
  · obtain ⟨rfl, rfl⟩ := List.cons.inj same
    exact other rfl rfl
  · exact free later

private theorem beforeComment_stripComment (line : List Char) : BeforeComment line (stripComment line) := by
  fun_induction stripComment line with
  | case1 => exact .whole (by simp)
  | case2 comment => exact .cut (List.nil_append _).symm (by decide)
  | case3 c rest other ih =>
    have apart : c = '/' → rest.head? ≠ some '/' := by
      intro slash head
      obtain ⟨after, starts⟩ := List.head?_eq_some_iff.mp head
      exact other after slash starts
    generalize stripComment rest = before at ih
    cases ih with
    | whole free => exact .whole (no_comment_cons apart free)
    | @cut _ comment line_eq first =>
      refine .cut (by rw [line_eq, List.cons_append]) (no_comment_cons ?_ first)
      -- The part before the comment and a slash start as the line does.
      simpa [line_eq, List.head?_append] using apart

private theorem beforeComment_iff {line before : List Char} :
    BeforeComment line before ↔ before = stripComment line := by
  constructor
  · intro cut
    cases cut with
    | whole free => rw [stripComment_eq_self free]
    | @cut _ comment line_eq first => rw [line_eq, stripComment_append first]
  · rintro rfl
    exact beforeComment_stripComment line

/-- A text without the blanks around it. -/
structure Trims (text body : List Char) : Prop where
  between : ∃ left right, text = left ++ body ++ right ∧ (∀ c ∈ left, isBlank c = true) ∧
    ∀ c ∈ right, isBlank c = true
  first : ∀ c ∈ body.head?, isBlank c = false
  last : ∀ c ∈ body.getLast?, isBlank c = false

private theorem dropWhile_eq_self {accepts : Char → Bool} {text : List Char}
    (stops : ∀ c ∈ text.head?, accepts c = false) : text.dropWhile accepts = text := by
  cases text with
  | nil => rfl
  | cons c rest =>
    have stop : accepts c = false := stops c rfl
    simp [stop]

private theorem trimRight_append {body right : List Char} (blank : ∀ c ∈ right, isBlank c = true)
    (last : ∀ c ∈ body.getLast?, isBlank c = false) : trimRight (body ++ right) = body := by
  rw [trimRight, List.reverse_append, List.dropWhile_append_of_pos (by simpa using blank),
    dropWhile_eq_self (by simpa using last), List.reverse_reverse]

theorem trim_append {left body right : List Char} (before : ∀ c ∈ left, isBlank c = true)
    (after : ∀ c ∈ right, isBlank c = true) (first : ∀ c ∈ body.head?, isBlank c = false)
    (last : ∀ c ∈ body.getLast?, isBlank c = false) : trim (left ++ body ++ right) = body := by
  rw [trim, trimLeft, List.append_assoc, List.dropWhile_append_of_pos before]
  cases body with
  | nil => rw [List.nil_append, List.dropWhile_eq_nil_iff.mpr after]; rfl
  | cons c body =>
    have stops : ∀ d ∈ (c :: body ++ right).head?, isBlank d = false := by simpa using first
    rw [dropWhile_eq_self stops, trimRight_append after last]

theorem trims_trim (text : List Char) : Trims text (trim text) := by
  -- The body is found from the left first, then from the right in what is left.
  have tail : trimLeft text = trim text ++ ((trimLeft text).reverse.takeWhile isBlank).reverse := by
    rw [trim, trimRight, ← List.reverse_append, List.takeWhile_append_dropWhile, List.reverse_reverse]
  refine ⟨⟨text.takeWhile isBlank, ((trimLeft text).reverse.takeWhile isBlank).reverse, ?_, ?_, ?_⟩, ?_, ?_⟩
  · rw [List.append_assoc, ← tail]
    exact List.takeWhile_append_dropWhile.symm
  · exact fun c => List.mem_takeWhile_imp
  · intro c member
    exact List.mem_takeWhile_imp (List.mem_reverse.mp member)
  · intro c head
    have front : c ∈ (trimLeft text).head? := by
      rw [tail, List.head?_append, head]
      rfl
    exact head?_dropWhile c front
  · intro c last
    rw [trim, trimRight, List.getLast?_reverse] at last
    exact head?_dropWhile c last

theorem trims_iff {text body : List Char} : Trims text body ↔ body = trim text := by
  constructor
  · rintro ⟨⟨left, right, rfl, before, after⟩, first, last⟩
    exact (trim_append before after first last).symm
  · rintro rfl
    exact trims_trim text

/-- What a line says: the part before its comment, without the blanks around it. -/
def HasContent (line content : List Char) : Prop := ∃ before, BeforeComment line before ∧ Trims before content

private theorem hasContent_iff {line said : List Char} : HasContent line said ↔ said = content line := by
  simp only [HasContent, beforeComment_iff, trims_iff, exists_eq_left, content]

theorem forall₂_hasContent_iff {lines said : List (List Char)} :
    List.Forall₂ HasContent lines said ↔ said = lines.map content := by
  constructor
  · intro contents
    induction contents with
    | nil => rfl
    | cons first _ ih => rw [List.map_cons, hasContent_iff.mp first, ih]
  · rintro rfl
    rw [List.forall₂_map_right_iff, List.forall₂_same]
    exact fun line _ => hasContent_iff.mpr rfl

end HackVM.Text
