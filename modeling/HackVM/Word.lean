/-! # Machine words

Operands, addresses and memory cells are 16-bit words. A word has an unsigned reading, used for
addresses and operands, and a signed one in two's complement, used for stored values.
-/

namespace HackVM

/-- A 16-bit word. -/
abbrev Word := BitVec 16

namespace Word

/-- The unsigned reading in decimal. -/
def decimal (word : Word) : String := word.toNat.repr

/-- The word with a given unsigned value, unless the value needs more than 16 bits. -/
def ofNat? (value : Nat) : Option Word :=
  if value < 65536 then some (BitVec.ofNat 16 value) else none

/-- The number that a list of decimal digits denotes. -/
def digitsValue (digits : List Char) : Nat :=
  digits.foldl (fun value digit => 10 * value + (digit.toNat - '0'.toNat)) 0

/-- Read a word from decimal digits. Leading zeros are allowed; no digit at all is not. -/
def ofDigits? (digits : List Char) : Option Word :=
  if digits.isEmpty || !digits.all Char.isDigit then none else ofNat? (digitsValue digits)

end Word

end HackVM
