/-! # Cutting texts

A text cut at every occurrence of a character, or at the first one only.
-/

namespace HackVM.Text

/-- Cut a text at every occurrence of a character. The pieces joined by that character give the text
back, so there is always at least one. -/
def pieces (mark : Char) (text : List Char) : List (List Char) :=
  text.foldr
    (fun c pieces =>
      if c = mark then [] :: pieces
      else match pieces with
        | [] => [[c]]
        | piece :: rest => (c :: piece) :: rest)
    [[]]

/-- Cut a text at the first occurrence of a character, which is dropped. -/
def cut? (mark : Char) (text : List Char) : Option (List Char × List Char) :=
  match text.span (· != mark) with
  | (before, _ :: after) => some (before, after)
  | _ => none

end HackVM.Text
