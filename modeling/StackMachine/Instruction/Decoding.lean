import StackMachine.Cursor
import StackMachine.Instruction
import StackMachine.Text.Hexadecimal

/-!
# Decoding

Reading an instruction from bytes: its opcode decides which operand follows. There are three ways
to fail, and each leaves the cursor in its own place: at the end of the code it does not move,
after a byte that is no opcode it stands behind that byte, and when the operand runs past the end
it stands behind the opcode.
-/

namespace StackMachine

/-- Why no instruction can be read. -/
inductive DecodeError where
  /-- There is no byte at the position. -/
  | endOfCode (offset : Nat)
  /-- The byte is no opcode. -/
  | unknownOpcode (byte : UInt8)
  /-- The operand of the opcode runs past the end. -/
  | truncatedOperand (op : Opcode) (shortfall : Shortfall)
  deriving Repr, DecidableEq

/-- The wording of a decoding error. -/
def DecodeError.message : DecodeError → String
  | .endOfCode offset => "no instruction at offset " ++ toString offset ++ ": end of code"
  | .unknownOpcode byte => "unknown opcode " ++ Text.Hexadecimal.marked 2 byte.toNat
  | .truncatedOperand op shortfall =>
    "truncated operand for " ++ op.mnemonic ++ ": " ++ shortfall.message

/-- Take an operand. -/
def Cursor.operand (c : Cursor) : (i : Immediate) → Except Shortfall (i.Operand × Cursor)
  | .none => .ok ((), c)
  | .i8 => c.i8
  | .i16 | .branchOffset => c.i16
  | .localIndex => c.u8

/-- Take an instruction, and say where the cursor is left. -/
def Cursor.instruction (c : Cursor) : Except DecodeError Instruction × Cursor :=
  match c.u8 with
  | .error _ => (.error (.endOfCode c.pos), c)
  | .ok (b, c₁) =>
    match Opcode.ofByte? b with
    | none => (.error (.unknownOpcode b), c₁)
    | some op =>
      match c₁.operand op.immediate with
      | .error shortfall => (.error (.truncatedOperand op shortfall), c₁)
      | .ok (v, c₂) => (.ok (.ofOpcode op v), c₂)

/-- An instruction and the bytes that it was read from. -/
structure Located where
  instruction : Instruction
  /-- The offset of its opcode byte. -/
  start : Nat
  /-- The offset behind its last byte. -/
  stop : Nat
  deriving Repr, DecidableEq

namespace Located

/-- How many bytes it was read from. -/
def length (l : Located) : Nat := l.stop - l.start

/-- Where a branch goes, which may lie outside the code; other instructions do not branch. -/
def target? (l : Located) : Option Int :=
  l.instruction.branchOffset?.map fun offset => l.start + offset.toInt

end Located

/-- Take an instruction and note where it was. -/
def Cursor.located (c : Cursor) : Except DecodeError Located × Cursor :=
  match c.instruction with
  | (.ok i, c') => (.ok { instruction := i, start := c.pos, stop := c'.pos }, c')
  | (.error e, c') => (.error e, c')

/-! ### Progress -/

theorem Cursor.u8_eq_ok {c c' : Cursor} {b : UInt8} (h : c.u8 = .ok (b, c')) :
    c.pos < c.code.size ∧ c'.code = c.code ∧ c'.pos = c.pos + 1 := by
  unfold Cursor.u8 at h
  split at h
  · cases h
    exact ⟨by assumption, rfl, rfl⟩
  · cases h

theorem Cursor.operand_eq_ok {c c' : Cursor} {i : Immediate} {v : i.Operand}
    (h : c.operand i = .ok (v, c')) : c'.code = c.code ∧ c'.pos = c.pos + i.width := by
  cases i with
  | none => cases h; exact ⟨rfl, rfl⟩
  | i8 =>
    obtain ⟨⟨b, d⟩, hd, e⟩ : ∃ p, c.u8 = .ok p ∧ (p.1.toInt8, p.2) = (v, c') := by
      change c.u8.map _ = _ at h
      cases hd : c.u8 with
      | error s => rw [hd] at h; cases h
      | ok p => rw [hd] at h; exact ⟨p, rfl, Except.ok.inj h⟩
    cases e
    exact (Cursor.u8_eq_ok hd).2
  | i16 | branchOffset =>
    change c.i16 = _ at h
    unfold Cursor.i16 at h
    split at h
    · cases h; exact ⟨rfl, rfl⟩
    · cases h
  | localIndex => exact (Cursor.u8_eq_ok h).2

/-- A decoded instruction is inside the code and as long as its opcode says. -/
theorem Cursor.instruction_eq_ok {c c' : Cursor} {i : Instruction}
    (h : c.instruction = (.ok i, c')) :
    c.pos < c.code.size ∧ c'.code = c.code ∧ c'.pos = c.pos + i.size := by
  unfold Cursor.instruction at h
  split at h
  · cases h
  · next b c₁ hb =>
    obtain ⟨hlt, hcode, hpos⟩ := Cursor.u8_eq_ok hb
    split at h
    · cases h
    · next op _ =>
      split at h
      · cases h
      · next v c₂ hv =>
        obtain ⟨hcode', hpos'⟩ := Cursor.operand_eq_ok hv
        cases h
        refine ⟨hlt, hcode'.trans hcode, ?_⟩
        simp only [Instruction.size, Instruction.opcode_ofOpcode, Opcode.size]
        omega

/-- A byte that is no opcode is passed over. -/
theorem Cursor.instruction_eq_unknownOpcode {c c' : Cursor} {b : UInt8}
    (h : c.instruction = (.error (.unknownOpcode b), c')) :
    c.pos < c.code.size ∧ c'.code = c.code ∧ c'.pos = c.pos + 1 := by
  unfold Cursor.instruction at h
  split at h
  · cases h
  · next b c₁ hb =>
    split at h
    · cases h
      exact Cursor.u8_eq_ok hb
    · split at h <;> cases h

end StackMachine
