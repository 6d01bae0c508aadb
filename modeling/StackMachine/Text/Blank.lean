/-!
# Blanks

The characters that separate words: those with the Unicode property White_Space. A line of
assembly may hold any of them between its parts, and what is reported of a line is trimmed of
them on both sides.
-/

namespace StackMachine.Text

/-- A character with the Unicode property White_Space. -/
def isBlank (c : Char) : Bool :=
  c == ' ' || (9 ≤ c.toNat && c.toNat ≤ 13) || c.toNat == 0x85 || c.toNat == 0xa0 ||
    c.toNat == 0x1680 || (0x2000 ≤ c.toNat && c.toNat ≤ 0x200a) || c.toNat == 0x2028 ||
    c.toNat == 0x2029 || c.toNat == 0x202f || c.toNat == 0x205f || c.toNat == 0x3000

/-- The text without the blanks in front of it. -/
def dropBlanks (cs : List Char) : List Char := cs.dropWhile isBlank

/-- The text without the blanks in front of it and behind it. -/
def trim (cs : List Char) : List Char := (dropBlanks (dropBlanks cs).reverse).reverse

/-- The text without any of its blanks. -/
def removeBlanks (cs : List Char) : List Char := cs.filter (!isBlank ·)

end StackMachine.Text
