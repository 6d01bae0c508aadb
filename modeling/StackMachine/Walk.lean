import StackMachine.Instruction.Decoding

/-!
# The linear walk

A walk reads a code from its first byte to its last, one instruction behind the other, without
following branches. A byte that is no opcode is an item of its own, and the walk goes on behind
it; an operand that runs past the end is the last item.
-/

namespace StackMachine

/-- What a walk finds at one position. -/
structure Item where
  /-- Where the walk tried to read an instruction. -/
  offset : Nat
  /-- The instruction there, or why there is none. -/
  result : Except DecodeError Located

/-- The items from a cursor on. -/
def walkFrom (c : Cursor) : List Item :=
  if c.atEnd then [] else
    match _h : c.instruction with
    | (.ok i, c') =>
      { offset := c.pos, result := .ok { instruction := i, start := c.pos, stop := c'.pos } } ::
        walkFrom c'
    | (.error (.unknownOpcode b), c') =>
      { offset := c.pos, result := .error (.unknownOpcode b) } :: walkFrom c'
    | (.error e, _) => [{ offset := c.pos, result := .error e }]
termination_by c.remaining
decreasing_by
  · obtain ⟨hlt, hcode, hpos⟩ := Cursor.instruction_eq_ok _h
    simp only [Cursor.remaining, hcode, hpos, Instruction.size, Opcode.size]
    omega
  · obtain ⟨hlt, hcode, hpos⟩ := Cursor.instruction_eq_unknownOpcode _h
    simp only [Cursor.remaining, hcode, hpos]
    omega

/-- The items of a code. -/
def walk (code : Code) : List Item := walkFrom { code, pos := 0 }

end StackMachine
