/-!
Characters by their numbers.

Not every number up to the greatest one belongs to a character: the halves of surrogate pairs do
not.
-/

namespace CodeAtlas

def maxCode : Nat := 0x10FFFF

def isHighHalf (n : Nat) : Bool := 0xD800 ≤ n && n < 0xDC00

def isLowHalf (n : Nat) : Bool := 0xDC00 ≤ n && n < 0xE000

/-- The character with a number. The halves of surrogate pairs are no characters, and the
replacement character stands in for them. -/
def charOfCode (n : Nat) : Char :=
  if h : n.isValidChar then Char.ofNatAux n h else '\ufffd'

end CodeAtlas
