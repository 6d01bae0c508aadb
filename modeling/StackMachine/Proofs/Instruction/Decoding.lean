import StackMachine.Instruction.Encoding
import StackMachine.Instruction.Decoding

/-!
# What decoding finds

An instruction is read at a position of a code exactly when its bytes stand there. `HoldsAt` says
that bytes stand at a position, and `Cursor.instruction_cases` lists the four ways in which a read
can go: each with the condition on the bytes that decides for it, the result, and the place where
the cursor is left. `Cursor.instruction_eq_ok_iff` is the successful one as an equivalence.
-/

namespace StackMachine

/-! ### Bytes at a position -/

/-- The bytes stand in the code from a position on. -/
def HoldsAt (code : Code) (pos : Nat) (bs : List UInt8) : Prop := bs <+: code.toList.drop pos

instance (code : Code) (pos : Nat) (bs : List UInt8) : Decidable (HoldsAt code pos bs) :=
  inferInstanceAs (Decidable (bs <+: code.toList.drop pos))

@[simp] theorem holdsAt_nil (code : Code) (pos : Nat) : HoldsAt code pos [] := List.nil_prefix

@[simp] theorem holdsAt_cons {code : Code} {pos : Nat} {b : UInt8} {bs : List UInt8} :
    HoldsAt code pos (b :: bs) ↔ code[pos]? = some b ∧ HoldsAt code (pos + 1) bs := by
  unfold HoldsAt
  by_cases h : pos < code.size
  · rw [List.drop_eq_getElem_cons (by simpa using h), List.cons_prefix_cons,
      Array.getElem?_eq_getElem h]
    simp [eq_comm]
  · have h' : code.toList.drop pos = [] := List.drop_eq_nil_of_le (by simpa using h)
    simp [h', Array.getElem?_eq_none (Nat.le_of_not_lt h)]

theorem holdsAt_append {code : Code} {pos : Nat} {bs cs : List UInt8} :
    HoldsAt code pos (bs ++ cs) ↔ HoldsAt code pos bs ∧ HoldsAt code (pos + bs.length) cs := by
  induction bs generalizing pos with
  | nil => simp
  | cons b bs ih =>
    have e : pos + (bs.length + 1) = pos + 1 + bs.length := by omega
    simp only [List.cons_append, holdsAt_cons, ih, List.length_cons, e, and_assoc]

/-- A code holds its own bytes from the start. -/
theorem holdsAt_toArray (bs : List UInt8) : HoldsAt bs.toArray 0 bs := List.prefix_refl _

/-- Where bytes stand there is a byte of the code for each of them. -/
theorem HoldsAt.le_size {code : Code} {pos : Nat} {bs : List UInt8} (h : HoldsAt code pos bs)
    (hpos : pos ≤ code.size) : pos + bs.length ≤ code.size := by
  have := List.IsPrefix.length_le h
  simp only [List.length_drop, Array.length_toList] at this
  omega

/-- Bytes that stand at a position are those from there on. -/
theorem HoldsAt.toList_extract {code : Code} {pos : Nat} {bs : List UInt8}
    (h : HoldsAt code pos bs) : (code.extract pos (pos + bs.length)).toList = bs := by
  rw [Array.toList_extract, List.extract_eq_take_drop, Nat.add_sub_cancel_left]
  exact (List.prefix_iff_eq_take.1 h).symm

/-! ### Operands -/

theorem Cursor.u8_of_lt {c : Cursor} (h : c.pos < c.code.size) :
    c.u8 = .ok (c.code[c.pos], { c with pos := c.pos + 1 }) := dif_pos h

theorem Cursor.u8_of_le {c : Cursor} (h : c.code.size ≤ c.pos) :
    c.u8 = .error { offset := c.pos, needed := 1, available := c.remaining } :=
  dif_neg (Nat.not_lt_of_le h)

/-- An operand whose bytes are all there is read from them. -/
theorem Cursor.operand_of_le {c : Cursor} {i : Immediate} (h : c.pos + i.width ≤ c.code.size) :
    ∃ v, HoldsAt c.code c.pos (i.bytes v) ∧
      c.operand i = .ok (v, { c with pos := c.pos + i.width }) := by
  cases i with
  | none => exact ⟨(), by simp [Immediate.bytes], rfl⟩
  | i8 =>
    have hlt : c.pos < c.code.size := h
    refine ⟨c.code[c.pos].toInt8, by simp [Immediate.bytes, hlt], ?_⟩
    simp only [Cursor.operand, Cursor.i8, Cursor.u8_of_lt hlt]
    rfl
  | i16 | branchOffset =>
    have hlt : c.pos + 1 < c.code.size := h
    refine ⟨BigEndian.value c.code[c.pos] c.code[c.pos + 1], ?_, dif_pos hlt⟩
    simp [Immediate.bytes, hlt, Nat.lt_of_succ_lt hlt]
  | localIndex =>
    have hlt : c.pos < c.code.size := h
    exact ⟨c.code[c.pos], by simp [Immediate.bytes, hlt], Cursor.u8_of_lt hlt⟩

/-- An operand that runs past the end is not read. -/
theorem Cursor.operand_of_lt {c : Cursor} {i : Immediate} (hpos : c.pos ≤ c.code.size)
    (h : c.code.size < c.pos + i.width) :
    c.operand i = .error { offset := c.pos, needed := i.width, available := c.remaining } := by
  cases i with
  | none => exact absurd hpos (Nat.not_le_of_lt h)
  | i8 =>
    simp only [Cursor.operand, Cursor.i8, Cursor.u8_of_le (Nat.le_of_lt_succ h)]
    rfl
  | i16 | branchOffset => exact dif_neg (Nat.not_lt_of_le (Nat.le_of_lt_succ h))
  | localIndex => exact Cursor.u8_of_le (Nat.le_of_lt_succ h)

/-! ### Instructions -/

theorem Instruction.bytes_ofOpcode (op : Opcode) (v : op.immediate.Operand) :
    (ofOpcode op v).bytes = op.byte :: op.immediate.bytes v := by
  cases op with
  | iconst k => exact congrArg (fun k => [(Opcode.iconst k).byte]) (constantNumber_ofNumber k)
  | iloadShort slot =>
    exact congrArg (fun s => [(Opcode.iloadShort s).byte]) (shortSlot_ofSlot slot)
  | istoreShort slot =>
    exact congrArg (fun s => [(Opcode.istoreShort s).byte]) (shortSlot_ofSlot slot)
  | _ => rfl

/-- An encodable instruction stands at a position of a code. -/
def InstructionAt (code : Code) (pos : Nat) (i : Instruction) : Prop :=
  i.Encodable ∧ HoldsAt code pos i.bytes

instance (code : Code) (pos : Nat) (i : Instruction) : Decidable (InstructionAt code pos i) :=
  inferInstanceAs (Decidable (i.Encodable ∧ HoldsAt code pos i.bytes))

theorem InstructionAt.lt_size {code : Code} {pos : Nat} {i : Instruction}
    (h : InstructionAt code pos i) : pos < code.size :=
  (Array.getElem?_eq_some_iff.1 (holdsAt_cons.1 h.2).1).1

theorem InstructionAt.stop_le_size {code : Code} {pos : Nat} {i : Instruction}
    (h : InstructionAt code pos i) : pos + i.size ≤ code.size := by
  simpa using h.2.le_size (Nat.le_of_lt h.lt_size)

namespace Cursor

theorem instruction_of_le {c : Cursor} (h : c.code.size ≤ c.pos) :
    c.instruction = (.error (.endOfCode c.pos), c) := by
  simp only [instruction, u8_of_le h]

theorem instruction_of_unknown {c : Cursor} {b : UInt8} (hb : c.code[c.pos]? = some b)
    (hop : Opcode.ofByte? b = none) :
    c.instruction = (.error (.unknownOpcode b), { c with pos := c.pos + 1 }) := by
  obtain ⟨hlt, rfl⟩ := Array.getElem?_eq_some_iff.1 hb
  simp only [instruction, u8_of_lt hlt, hop]

theorem instruction_of_short {c : Cursor} {op : Opcode} (hb : c.code[c.pos]? = some op.byte)
    (h : c.code.size < c.pos + op.size) :
    c.instruction =
      (.error (.truncatedOperand op
        { offset := c.pos + 1
          needed := op.immediate.width
          available := c.code.size - (c.pos + 1) }), { c with pos := c.pos + 1 }) := by
  obtain ⟨hlt, hbyte⟩ := Array.getElem?_eq_some_iff.1 hb
  have hop : Opcode.ofByte? c.code[c.pos] = some op := Opcode.ofByte?_eq_some_iff.2 hbyte.symm
  have hr : operand { c with pos := c.pos + 1 } op.immediate = .error _ :=
    operand_of_lt hlt (by simpa only [Opcode.size, ← Nat.add_assoc] using h)
  simp only [instruction, u8_of_lt hlt, hop, hr]
  rfl

theorem instruction_of_whole {c : Cursor} {op : Opcode} (hb : c.code[c.pos]? = some op.byte)
    (h : c.pos + op.size ≤ c.code.size) :
    ∃ i, InstructionAt c.code c.pos i ∧
      c.instruction = (.ok i, { c with pos := c.pos + i.size }) := by
  obtain ⟨hlt, hbyte⟩ := Array.getElem?_eq_some_iff.1 hb
  have hop : Opcode.ofByte? c.code[c.pos] = some op := Opcode.ofByte?_eq_some_iff.2 hbyte.symm
  obtain ⟨v, hv, hr⟩ := operand_of_le (c := { c with pos := c.pos + 1 }) (i := op.immediate)
    (by simpa only [Opcode.size, ← Nat.add_assoc] using h)
  refine ⟨.ofOpcode op v, ⟨Instruction.encodable_ofOpcode op v, ?_⟩, ?_⟩
  · rw [Instruction.bytes_ofOpcode]
    exact holdsAt_cons.2 ⟨hb, hv⟩
  · simp only [instruction, u8_of_lt hlt, hop, hr, Instruction.size, Instruction.opcode_ofOpcode,
      Opcode.size, Nat.add_assoc]

/-- **The ways of reading an instruction**: there is no byte, or no opcode has the byte, or the
operand of its opcode runs past the end, or an instruction stands there. -/
theorem instruction_cases (c : Cursor) :
    (c.code.size ≤ c.pos ∧ c.instruction = (.error (.endOfCode c.pos), c)) ∨
    (∃ b, c.code[c.pos]? = some b ∧ Opcode.ofByte? b = none ∧
      c.instruction = (.error (.unknownOpcode b), { c with pos := c.pos + 1 })) ∨
    (∃ op : Opcode, c.code[c.pos]? = some op.byte ∧ c.code.size < c.pos + op.size ∧
      c.instruction =
        (.error (.truncatedOperand op
          { offset := c.pos + 1
            needed := op.immediate.width
            available := c.code.size - (c.pos + 1) }), { c with pos := c.pos + 1 })) ∨
    (∃ i : Instruction, InstructionAt c.code c.pos i ∧
      c.instruction = (.ok i, { c with pos := c.pos + i.size })) := by
  by_cases hlt : c.pos < c.code.size
  · have hb : c.code[c.pos]? = some c.code[c.pos] := Array.getElem?_eq_getElem hlt
    cases hop : Opcode.ofByte? c.code[c.pos] with
    | none => exact .inr (.inl ⟨_, hb, hop, instruction_of_unknown hb hop⟩)
    | some op =>
      rw [← Opcode.ofByte?_eq_some_iff.1 hop] at hb
      by_cases hle : c.pos + op.size ≤ c.code.size
      · exact .inr (.inr (.inr (instruction_of_whole hb hle)))
      · have hshort := Nat.lt_of_not_le hle
        exact .inr (.inr (.inl ⟨op, hb, hshort, instruction_of_short hb hshort⟩))
  · have hle := Nat.le_of_not_lt hlt
    exact .inl ⟨hle, instruction_of_le hle⟩

end Cursor

theorem Immediate.bytes_injective {i : Immediate} {v w : i.Operand} (h : i.bytes v = i.bytes w) :
    v = w := by
  cases i with
  | none => rfl
  | i8 =>
    have e : v.toUInt8 = w.toUInt8 := List.head_eq_of_cons_eq h
    simpa using congrArg UInt8.toInt8 e
  | i16 | branchOffset =>
    obtain ⟨hh, hl⟩ : _ ∧ _ := by simpa [bytes, BigEndian.bytes] using h
    rw [← BigEndian.value_bytes v, ← BigEndian.value_bytes w]
    congr 1
  | localIndex => exact List.head_eq_of_cons_eq h

/-- At most one instruction stands at a position. -/
theorem InstructionAt.unique {code : Code} {pos : Nat} {i j : Instruction}
    (hi : InstructionAt code pos i) (hj : InstructionAt code pos j) : i = j := by
  obtain ⟨op, v, rfl⟩ : ∃ op v, i = .ofOpcode op v :=
    ⟨_, _, (Instruction.ofOpcode_operand hi.1).symm⟩
  obtain ⟨op', w, rfl⟩ : ∃ op v, j = .ofOpcode op v :=
    ⟨_, _, (Instruction.ofOpcode_operand hj.1).symm⟩
  obtain ⟨hb, hv⟩ := holdsAt_cons.1 (Instruction.bytes_ofOpcode op v ▸ hi.2)
  obtain ⟨hb', hw⟩ := holdsAt_cons.1 (Instruction.bytes_ofOpcode op' w ▸ hj.2)
  obtain rfl : op = op' := Opcode.byte_injective (Option.some.inj (hb.symm.trans hb'))
  have hl : (op.immediate.bytes v).length = (op.immediate.bytes w).length := by simp
  have hp := List.prefix_of_prefix_length_le hv hw (Nat.le_of_eq hl)
  rw [Immediate.bytes_injective (hp.eq_of_length hl)]

/-- An instruction that stands in the code is read. -/
theorem InstructionAt.read {code : Code} {pos : Nat} {i : Instruction}
    (hi : InstructionAt code pos i) :
    Cursor.instruction { code, pos } = (.ok i, { code, pos := pos + i.size }) := by
  obtain ⟨j, hj, e⟩ := Cursor.instruction_of_whole (c := { code, pos }) (holdsAt_cons.1 hi.2).1
    hi.stop_le_size
  rw [e, hi.unique hj]

/-- Reading succeeds exactly where an instruction stands, and goes on behind it. -/
theorem Cursor.instruction_eq_ok_iff {c c' : Cursor} {i : Instruction} :
    c.instruction = (.ok i, c') ↔
      InstructionAt c.code c.pos i ∧ c' = { c with pos := c.pos + i.size } := by
  constructor
  · intro h
    rcases c.instruction_cases with ⟨-, e⟩ | ⟨b, -, -, e⟩ | ⟨op, -, -, e⟩ | ⟨j, hj, e⟩ <;>
      cases e.symm.trans h
    exact ⟨hj, rfl⟩
  · rintro ⟨hi, rfl⟩
    exact hi.read

theorem InstructionAt.located {code : Code} {pos : Nat} {i : Instruction}
    (h : InstructionAt code pos i) :
    (Cursor.located { code, pos }).1 =
      .ok { instruction := i, start := pos, stop := pos + i.size } := by
  rw [Cursor.located, h.read]

/-- What is read with its place stands in that place. -/
theorem Cursor.of_located_eq_ok {c : Cursor} {l : Located} (h : c.located.1 = .ok l) :
    InstructionAt c.code c.pos l.instruction ∧ l.start = c.pos ∧
      l.stop = c.pos + l.instruction.size := by
  unfold located at h
  split at h
  · next i c' e =>
    obtain ⟨hi, rfl⟩ := instruction_eq_ok_iff.1 e
    cases h
    exact ⟨hi, rfl, rfl⟩
  · cases h

end StackMachine
