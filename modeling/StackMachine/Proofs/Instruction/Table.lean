import StackMachine.Proofs.ByteOrder
import StackMachine.Proofs.Instruction.Decoding

/-!
# Decoding by the table of opcodes

What is decoded at a position is told by the table of opcodes alone (`Cursor.located_by_table`): the
opcode whose byte stands there says how many bytes follow and what number they are. The opcode and
that number determine the instruction, as it is one that has an encoding.

How a number stands in its bytes is said here once for operands of any width (`BigEndian.natural`,
`BigEndian.signed`), and not again for each width.
-/

namespace StackMachine

/-! ### The number in an operand -/

namespace BigEndian

/-- The number in bytes, the high one first. -/
def natural (bs : List UInt8) : Nat := bs.foldl (fun n b => 256 * n + b.toNat) 0

/-- The signed number in bytes. The numbers with the highest bit stand for negative ones. -/
def signed (bs : List UInt8) : Int :=
  if 2 * natural bs < 256 ^ bs.length then natural bs else natural bs - (256 ^ bs.length : Nat)

theorem signed_toUInt8 (v : Int8) : signed [v.toUInt8] = v.toInt := by
  have h : natural [v.toUInt8] = v.toBitVec.toNat := Nat.zero_add _
  rw [signed, h]
  exact (BitVec.toInt_eq_toNat_cond v.toBitVec).symm

theorem signed_bytes (v : Int16) : signed (bytes v) = v.toInt := by
  have hlt : v.toUInt16.toNat < 65536 := v.toUInt16.toNat_lt
  have h : natural (bytes v) = v.toBitVec.toNat := by
    show 256 * (256 * 0 + v.toUInt16.toNat / 256 % 256) + v.toUInt16.toNat % 256 = v.toUInt16.toNat
    omega
  have hpow : 256 ^ (bytes v).length = 2 ^ 16 := by
    show 256 ^ 2 = 2 ^ 16
    decide
  rw [signed, h, hpow]
  exact (BitVec.toInt_eq_toNat_cond v.toBitVec).symm

end BigEndian

namespace Immediate

/-- The number that the bytes of an operand stand for, if it has any. -/
def numberIn? : Immediate → List UInt8 → Option Int
  | .none, _ => Option.none
  | .i8, bs | .i16, bs | .branchOffset, bs => some (BigEndian.signed bs)
  | .localIndex, bs => some (BigEndian.natural bs)

/-- The number of an operand, if it is one. -/
def number? : (i : Immediate) → i.Operand → Option Int
  | .none, _ => Option.none
  | .i8, v => some v.toInt
  | .i16, v | .branchOffset, v => some v.toInt
  | .localIndex, v => some v.toNat

theorem numberIn?_bytes (i : Immediate) (v : i.Operand) :
    i.numberIn? (i.bytes v) = i.number? v := by
  cases i with
  | none => rfl
  | i8 => exact congrArg some (BigEndian.signed_toUInt8 v)
  | i16 | branchOffset => exact congrArg some (BigEndian.signed_bytes v)
  | localIndex => exact congrArg (fun n : Nat => some (n : Int)) (Nat.zero_add _)

end Immediate

/-! ### The instruction at a position -/

/-- The operand of an instruction is the number in the bytes behind its opcode. -/
theorem InstructionAt.number? {code : Code} {pos : Nat} {i : Instruction}
    (h : InstructionAt code pos i) :
    i.opcode.immediate.number? i.operand =
      i.opcode.immediate.numberIn? (code.extract (pos + 1) (pos + i.size)).toList := by
  have hextract := HoldsAt.toList_extract (holdsAt_cons.1 h.2).2
  rw [Immediate.length_bytes, Nat.add_assoc] at hextract
  exact (Immediate.numberIn?_bytes _ _).symm.trans (congrArg _ hextract.symm)

namespace Cursor

theorem located_of_instruction {c c' : Cursor} {i : Instruction} (h : c.instruction = (.ok i, c')) :
    c.located = (.ok { instruction := i, start := c.pos, stop := c'.pos }, c') := by
  rw [located, h]

theorem located_of_error {c c' : Cursor} {e : DecodeError} (h : c.instruction = (.error e, c')) :
    c.located = (.error e, c') := by
  rw [located, h]

/-- Where the code does not end before the operand of an opcode does, the instruction has this
opcode and the number that is in the bytes behind it. -/
theorem located_of_whole {code : Code} {pos : Nat} {op : Opcode} (hb : code[pos]? = some op.byte)
    (hle : pos + op.size ≤ code.size) :
    ∃ i : Instruction,
      Cursor.located { code, pos } =
        (.ok { instruction := i, start := pos, stop := pos + op.size },
          { code, pos := pos + op.size }) ∧
      i.Encodable ∧ i.opcode = op ∧
      i.opcode.immediate.number? i.operand =
        op.immediate.numberIn? (code.extract (pos + 1) (pos + op.size)).toList := by
  obtain ⟨i, hi, hread⟩ := instruction_of_whole (c := { code, pos }) hb hle
  obtain rfl : i.opcode = op :=
    Opcode.byte_injective (Option.some.inj ((holdsAt_cons.1 hi.2).1.symm.trans hb))
  exact ⟨i, located_of_instruction hread, hi.1, rfl, hi.number?⟩

/-- **Decoding accepts exactly the table of opcodes.** There is an instruction at a position just if
the byte there is that of an opcode, and the code does not end before the operand does. Then it is
the one with this opcode and the number in the bytes behind it, and the cursor stands behind these.
If not, one of three things is wrong, and each leaves the cursor in its own place: the position is
behind the end, or no opcode has the byte, or bytes of the operand are missing. -/
theorem located_by_table (code : Code) (pos : Nat) :
    let c : Cursor := { code, pos }
    ((∃ l, c.located.1 = .ok l) ↔
      ∃ op : Opcode, code[pos]? = some op.byte ∧ pos + op.size ≤ code.size) ∧
    (∀ op : Opcode, code[pos]? = some op.byte → pos + op.size ≤ code.size →
      ∃ i : Instruction,
        c.located =
          (.ok { instruction := i, start := pos, stop := pos + op.size },
            { code, pos := pos + op.size }) ∧
        i.Encodable ∧ i.opcode = op ∧
        i.opcode.immediate.number? i.operand =
          op.immediate.numberIn? (code.extract (pos + 1) (pos + op.size)).toList) ∧
    (code.size ≤ pos → c.located = (.error (.endOfCode pos), c)) ∧
    (∀ b, code[pos]? = some b → (∀ op : Opcode, op.byte ≠ b) →
      c.located = (.error (.unknownOpcode b), { code, pos := pos + 1 })) ∧
    (∀ op : Opcode, code[pos]? = some op.byte → code.size < pos + op.size →
      c.located =
        (.error (.truncatedOperand op
          { offset := pos + 1
            needed := op.immediate.width
            available := code.size - pos - 1 }), { code, pos := pos + 1 })) := by
  intro c
  refine ⟨?_, fun op => located_of_whole, ?_, ?_, ?_⟩
  · constructor
    · rintro ⟨l, hl⟩
      obtain ⟨hi, -⟩ := of_located_eq_ok hl
      exact ⟨l.instruction.opcode, (holdsAt_cons.1 hi.2).1, hi.stop_le_size⟩
    · rintro ⟨op, hb, hle⟩
      obtain ⟨i, hlocated, -⟩ := located_of_whole hb hle
      exact ⟨_, congrArg Prod.fst hlocated⟩
  · intro hle
    exact located_of_error (instruction_of_le hle)
  · intro b hb hop
    have hnone : Opcode.ofByte? b = none := by
      rw [Option.eq_none_iff_forall_ne_some]
      intro op h
      exact hop op (Opcode.ofByte?_eq_some_iff.1 h)
    exact located_of_error (instruction_of_unknown hb hnone)
  · intro op hb hlt
    rw [Nat.sub_sub]
    exact located_of_error (instruction_of_short hb hlt)

/-- A branch back, a byte that is no opcode, and an operand of which one byte is missing. -/
theorem located_by_table_branch_back :
    let code : Code := #[0xa7, 0xff, 0xfd, 0xb8, 0x11, 0x80]
    (code[0]? = some Opcode.goto.byte ∧ 0 + Opcode.goto.size ≤ code.size ∧
      ∃ i : Instruction, i.opcode = .goto ∧
        (Cursor.located { code, pos := 0 }).1 = .ok { instruction := i, start := 0, stop := 3 } ∧
        i.opcode.immediate.number? i.operand = some (-3)) ∧
    (code[3]? = some 0xb8 ∧ (∀ op : Opcode, op.byte ≠ 0xb8) ∧
      Cursor.located { code, pos := 3 } = (.error (.unknownOpcode 0xb8), { code, pos := 4 })) ∧
    (code[4]? = some Opcode.sipush.byte ∧ code.size < 4 + Opcode.sipush.size ∧
      Cursor.located { code, pos := 4 } =
        (.error (.truncatedOperand .sipush { offset := 5, needed := 2, available := 1 }),
          { code, pos := 5 })) ∧
    (code.size ≤ 9 ∧
      Cursor.located { code, pos := 9 } = (.error (.endOfCode 9), { code, pos := 9 })) := by
  intro code
  have hunknown : ∀ op : Opcode, op.byte ≠ 0xb8 := by
    have key : ∀ op ∈ Opcode.all, op.byte ≠ 0xb8 := by decide
    exact fun op => key op (Opcode.mem_all op)
  obtain ⟨i, hi, -, hop, hnumber⟩ := (located_by_table code 0).2.1 .goto rfl (by decide)
  have hdistance : Immediate.branchOffset.numberIn? [0xff, 0xfd] = some (-3) := by decide +kernel
  refine ⟨⟨rfl, by decide, i, hop, congrArg Prod.fst hi, hnumber.trans hdistance⟩,
    ⟨rfl, hunknown, ?_⟩, ⟨rfl, by decide, ?_⟩, ⟨by decide, ?_⟩⟩
  · exact (located_by_table code 3).2.2.2.1 0xb8 rfl hunknown
  · exact (located_by_table code 4).2.2.2.2 .sipush rfl (by decide)
  · exact (located_by_table code 9).2.2.1 (by decide)

end Cursor

end StackMachine
