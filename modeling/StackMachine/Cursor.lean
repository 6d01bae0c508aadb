import StackMachine.ByteOrder

/-!
# Reading bytes in order

A cursor stands at a position in a string of bytes and takes numbers from it. A number is taken
whole or not at all: when too few bytes are left the cursor stays where it is. The position may
lie beyond the end, where no byte is left.
-/

namespace StackMachine

/-- A string of bytes that is addressed by offset: the code of a program. -/
abbrev Code := Array UInt8

/-- A read that asked for more bytes than are left. -/
structure Shortfall where
  /-- Where the read began. -/
  offset : Nat
  /-- How many bytes it asked for. -/
  needed : Nat
  /-- How many there are from that position on. -/
  available : Nat
  deriving Repr, DecidableEq

/-- The wording of a shortfall. -/
def Shortfall.message (s : Shortfall) : String :=
  "needed " ++ toString s.needed ++ " bytes at offset " ++ toString s.offset ++ ", " ++
    toString s.available ++ " available"

/-- A position in a string of bytes. -/
structure Cursor where
  /-- All the bytes. -/
  code : Code
  /-- How many of them lie behind. -/
  pos : Nat
  deriving Repr, DecidableEq

namespace Cursor

/-- How many bytes are left. -/
def remaining (c : Cursor) : Nat := c.code.size - c.pos

/-- No byte is left. -/
def atEnd (c : Cursor) : Bool := c.remaining == 0

/-- At least `n` bytes are left. -/
def has (c : Cursor) (n : Nat) : Bool := n ≤ c.remaining

/-- Take `n` bytes. -/
def bytes (c : Cursor) (n : Nat) : Except Shortfall (List UInt8 × Cursor) :=
  if c.has n then
    .ok ((c.code.extract c.pos (c.pos + n)).toList, { c with pos := c.pos + n })
  else
    .error { offset := c.pos, needed := n, available := c.remaining }

/-- Take a byte. -/
def u8 (c : Cursor) : Except Shortfall (UInt8 × Cursor) :=
  if h : c.pos < c.code.size then
    .ok (c.code[c.pos], { c with pos := c.pos + 1 })
  else
    .error { offset := c.pos, needed := 1, available := c.remaining }

/-- Take a signed number of one byte. -/
def i8 (c : Cursor) : Except Shortfall (Int8 × Cursor) :=
  c.u8.map fun (b, c') => (b.toInt8, c')

/-- Take a signed number of two bytes, the high one first. -/
def i16 (c : Cursor) : Except Shortfall (Int16 × Cursor) :=
  if h : c.pos + 1 < c.code.size then
    .ok (BigEndian.value c.code[c.pos] c.code[c.pos + 1], { c with pos := c.pos + 2 })
  else
    .error { offset := c.pos, needed := 2, available := c.remaining }

end Cursor

end StackMachine
