/-! # Blank characters

The characters with the Unicode property `White_Space`, and the removal of blank margins. Texts are
lists of characters here, so that every later statement about them is an induction on a list.
-/

namespace HackVM.Text

/-- Inclusive ranges of the code points with the property `White_Space`, in ascending order. -/
def blankRanges : List (Nat × Nat) :=
  [(0x09, 0x0D), (0x20, 0x20), (0x85, 0x85), (0xA0, 0xA0), (0x1680, 0x1680), (0x2000, 0x200A),
   (0x2028, 0x2029), (0x202F, 0x202F), (0x205F, 0x205F), (0x3000, 0x3000)]

/-- Whether a character has the property `White_Space`. -/
def isBlank (c : Char) : Bool :=
  blankRanges.any fun range => range.1 ≤ c.toNat && c.toNat ≤ range.2

/-- The text without its leading blanks. -/
def trimLeft (text : List Char) : List Char := text.dropWhile isBlank

/-- The text without its trailing blanks. -/
def trimRight (text : List Char) : List Char := (text.reverse.dropWhile isBlank).reverse

/-- The text without blanks at either end. -/
def trim (text : List Char) : List Char := trimRight (trimLeft text)

/-- The leading run of characters that are not blank, and what follows it. -/
def splitWord (text : List Char) : List Char × List Char := text.span fun c => !isBlank c

end HackVM.Text
