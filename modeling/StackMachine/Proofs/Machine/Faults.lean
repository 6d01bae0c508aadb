import StackMachine.Proofs.Machine.Turns
import StackMachine.Proofs.Value

/-!
# When a turn faults

`FaultCause` is the table of what can go wrong at a position inside the code, in terms of the bytes
there, the limits and the values on the stack. `fault_causes` says that the table is exact for
every machine that a run reaches: a turn faults with a kind just if the table has a cause for it,
otherwise it completes an instruction, and a run that faults reports the position.

The stack being as large as the limits say (`Reachable.within`) is what makes the table exact: a
push fails when the stack holds as many values as its capacity, and arithmetic, which has popped
what it replaces, always has room.
-/

namespace StackMachine

/-- **The causes of a fault** at a position inside the code, with some values on the stack, the
top one first. -/
inductive FaultCause (limits : Limits) (code : Code) (pos : Nat) (values : List Value) :
    FaultKind → Prop
  /-- The byte is no opcode. -/
  | unknownOpcode {b : UInt8} (hb : code[pos]? = some b) (hop : ∀ op : Opcode, op.byte ≠ b) :
      FaultCause limits code pos values (.unknownOpcode b)
  /-- The operand of the opcode runs past the end. -/
  | truncatedOperand {op : Opcode} (hb : code[pos]? = some op.byte)
      (hs : code.size < pos + 1 + op.immediate.width) :
      FaultCause limits code pos values
        (.truncatedOperand op op.immediate.width (code.size - (pos + 1)))
  /-- A constant is pushed onto a full stack. -/
  | constantFull {i : Instruction} {v : Value} (hi : InstructionAt code pos i)
      (hv : i.constant? = some v) (hd : values.length = limits.stackCapacity) :
      FaultCause limits code pos values (.stackOverflow limits.stackCapacity)
  /-- A local variable is pushed that there is not, even onto a full stack. -/
  | loadOutside {i : Instruction} {index : UInt8} (hi : InstructionAt code pos i)
      (hx : i.loaded? = some index) (hl : min limits.localsCapacity 256 ≤ index.toNat) :
      FaultCause limits code pos values
        (.localOutOfBounds index (min limits.localsCapacity 256))
  /-- A local variable is pushed onto a full stack. -/
  | loadFull {i : Instruction} {index : UInt8} (hi : InstructionAt code pos i)
      (hx : i.loaded? = some index) (hl : index.toNat < min limits.localsCapacity 256)
      (hd : values.length = limits.stackCapacity) :
      FaultCause limits code pos values (.stackOverflow limits.stackCapacity)
  /-- There is no value for a local variable, whether or not there is the variable. -/
  | storeEmpty {i : Instruction} {index : UInt8} (hi : InstructionAt code pos i)
      (hx : i.stored? = some index) (hd : values.length = 0) :
      FaultCause limits code pos values .stackUnderflow
  /-- There is a value for a local variable that there is not. -/
  | storeOutside {i : Instruction} {index : UInt8} (hi : InstructionAt code pos i)
      (hx : i.stored? = some index) (hd : values.length ≠ 0)
      (hl : min limits.localsCapacity 256 ≤ index.toNat) :
      FaultCause limits code pos values
        (.localOutOfBounds index (min limits.localsCapacity 256))
  /-- There is no value to negate or to return. -/
  | oneMissing {i : Instruction} (hi : InstructionAt code pos i) (hx : i = .ineg ∨ i = .ireturn)
      (hd : values.length = 0) : FaultCause limits code pos values .stackUnderflow
  /-- There are no two values to compute with or to compare. -/
  | twoMissing {i : Instruction} (hi : InstructionAt code pos i)
      (hx : (∃ op, i = .binary op) ∨ ∃ cond offset, i = .ifIcmp cond offset)
      (hd : values.length < 2) : FaultCause limits code pos values .stackUnderflow
  /-- A value is divided by zero. -/
  | zeroDivisor {op : BinaryOp} {left : Value} {rest : List Value}
      (hi : InstructionAt code pos (.binary op)) (hx : op = .div ∨ op = .rem)
      (hs : values = 0 :: left :: rest) : FaultCause limits code pos values .divisionByZero

namespace Machine

theorem ofByte?_eq_none_iff {b : UInt8} :
    Opcode.ofByte? b = none ↔ ∀ op : Opcode, op.byte ≠ b := by
  rw [Option.eq_none_iff_forall_ne_some]
  exact forall_congr' fun op => not_congr Opcode.ofByte?_eq_some_iff

/-- The stack is full when it holds as many values as the limits allow. -/
theorem Within.room_eq_zero_iff {limits : Limits} {m : Machine} (h : Within limits m) :
    m.stack.room = 0 ↔ m.stack.values.length = limits.stackCapacity := by
  have := h.capacity
  simp only [OperandStack.capacity, OperandStack.depth] at this
  omega

/-- A failing instruction has a cause in the table. -/
theorem Fails.cause {limits : Limits} {code : Code} {m after : Machine} {pos : Nat}
    {i : Instruction} {kind : FaultKind} (hm : Within limits m) (hi : InstructionAt code pos i)
    (h : Fails i (m.behind pos i) kind after) :
    FaultCause limits code pos m.stack.values kind := by
  have hc : (m.behind pos i).stack.capacity = limits.stackCapacity := hm.capacity
  have hl : (m.behind pos i).locals.size = min limits.localsCapacity 256 := hm.locals
  cases h with
  | constantFull hv hr => exact hc ▸ .constantFull hi hv (hm.room_eq_zero_iff.1 hr)
  | loadOutside hx h => exact hl ▸ .loadOutside hi hx (hl ▸ h)
  | loadFull hx h hr => exact hc ▸ .loadFull hi hx (hl ▸ h) (hm.room_eq_zero_iff.1 hr)
  | storeOutside hx hd h => exact hl ▸ .storeOutside hi hx (Nat.ne_of_gt hd) (hl ▸ h)
  | underflow hd =>
    have hd : m.stack.values.length < i.operandCount := hd
    cases i with
    | binary op => exact .twoMissing hi (.inl ⟨op, rfl⟩) hd
    | ifIcmp cond offset => exact .twoMissing hi (.inr ⟨cond, offset, rfl⟩) hd
    | ineg => exact .oneMissing hi (.inl rfl) (Nat.lt_one_iff.1 hd)
    | ireturn => exact .oneMissing hi (.inr rfl) (Nat.lt_one_iff.1 hd)
    | istore index | istoreShort index => exact .storeEmpty hi rfl (Nat.lt_one_iff.1 hd)
    | _ => cases hd
  | noResult hv hs =>
    obtain ⟨hop, rfl⟩ := BinaryOp.eval?_eq_none_iff.1 hv
    exact .zeroDivisor hi hop hs

/-- A cause in the table makes the turn fault. -/
theorem turn_of_cause {limits : Limits} {code : Code} {m : Machine} {pos : Nat} {kind : FaultKind}
    (hm : Within limits m) (hpc : m.pc = pos) (h : FaultCause limits code pos m.stack.values kind) :
    ∃ after, m.turn code = .faulted kind after := by
  have hl : m.locals.size = min limits.localsCapacity 256 := hm.locals
  cases h with
  | unknownOpcode hb hop => exact ⟨m, turn_of_unknown hpc hb (ofByte?_eq_none_iff.2 hop)⟩
  | truncatedOperand hb hs =>
    rw [Nat.add_assoc] at hs
    exact ⟨m, turn_of_short hpc hb hs⟩
  | constantFull hi hv hd =>
    rw [← hm.capacity]
    exact ⟨_, turn_of_fails hpc hi (.constantFull hv (hm.room_eq_zero_iff.2 hd))⟩
  | loadOutside hi hx h =>
    rw [← hl] at h ⊢
    exact ⟨_, turn_of_fails hpc hi (.loadOutside hx h)⟩
  | loadFull hi hx h hd =>
    rw [← hl] at h
    rw [← hm.capacity]
    exact ⟨_, turn_of_fails hpc hi (.loadFull hx h (hm.room_eq_zero_iff.2 hd))⟩
  | storeEmpty hi hx hd =>
    refine ⟨_, turn_of_fails hpc hi (.underflow ?_)⟩
    rw [Instruction.operandCount_of_stored? hx]
    exact Nat.lt_one_iff.2 hd
  | storeOutside hi hx hd h =>
    rw [← hl] at h ⊢
    exact ⟨_, turn_of_fails hpc hi (.storeOutside hx (Nat.pos_of_ne_zero hd) h)⟩
  | oneMissing hi hx hd =>
    rcases hx with rfl | rfl <;>
      exact ⟨_, turn_of_fails hpc hi (.underflow (Nat.lt_one_iff.2 hd))⟩
  | twoMissing hi hx hd =>
    rcases hx with ⟨op, rfl⟩ | ⟨cond, offset, rfl⟩ <;>
      exact ⟨_, turn_of_fails hpc hi (.underflow hd)⟩
  | zeroDivisor hi hx hs =>
    exact ⟨_, turn_of_fails hpc hi (.noResult (BinaryOp.eval?_eq_none_iff.2 ⟨hx, rfl⟩) hs)⟩

/-- A fault inside the code has a cause in the table. -/
theorem cause_of_turn {limits : Limits} {code : Code} {m after : Machine} {pos : Nat}
    {kind : FaultKind} (hm : Within limits m) (hpc : m.pc = pos) (hpos : pos < code.size)
    (h : m.turn code = .faulted kind after) : FaultCause limits code pos m.stack.values kind := by
  rcases turn_cases code m with ⟨-, e⟩ | ⟨hout, -⟩ | ⟨pos', hpc', -, ht⟩
  · cases e.symm.trans h
  · omega
  obtain rfl : pos' = pos := Int.ofNat.inj (hpc'.symm.trans hpc)
  rcases ht with ⟨b, hb, hop, e⟩ | ⟨op, hb, hs, e⟩ | ⟨i, hi, ⟨_, _, -, e⟩ | ⟨_, _, hf, e⟩⟩ <;>
    cases e.symm.trans h
  · exact .unknownOpcode hb (ofByte?_eq_none_iff.1 hop)
  · exact .truncatedOperand hb ((Nat.add_assoc ..).symm ▸ hs)
  · exact hf.cause hm hi

/-- A fault that ends a run lies outside the code, or it has a cause in the table. -/
theorem Ends.cause {limits : Limits} {code : Code} {m : Machine} {fault : Fault}
    {stack : OperandStack} (hm : Reachable limits code m)
    (h : Ends code m (.faulted fault) stack) :
    fault.kind = .pcOutOfBounds code.size ∨
      ∃ pos, FaultCause limits code pos m.stack.values fault.kind := by
  cases h with
  | faulted ht =>
    rcases turn_cases code m with ⟨-, e⟩ | ⟨-, e⟩ | ⟨pos, hpc, hpos, -⟩
    · cases e.symm.trans ht
    · cases e.symm.trans ht
      exact .inl rfl
    · exact .inr ⟨pos, cause_of_turn hm.within hpc hpos ht⟩

/-- **The faults of a turn.** In every machine that a run reaches with its program counter inside
the code, a turn faults with exactly the kinds that have a cause there, and a run reports such a
fault at the program counter; without a cause the turn completes the instruction there. So
arithmetic never overflows the stack, and reading never meets the end of the code. -/
theorem fault_causes {limits : Limits} {code : Code} {m : Machine} (hm : Reachable limits code m)
    {pos : Nat} (hpc : m.pc = pos) (hpos : pos < code.size) :
    (∀ kind, (∃ after, m.turn code = .faulted kind after) ↔
      FaultCause limits code pos m.stack.values kind) ∧
    (∀ kind after, m.turn code = .faulted kind after → ∀ logged turns log,
      m.run logged code (turns + 1) log =
        some { outcome := .faulted { kind, pc := pos }, stack := after.stack, log }) ∧
    ((∀ kind, ¬ FaultCause limits code pos m.stack.values kind) →
      ∃ i flow after, InstructionAt code pos i ∧ m.turn code = .completed i flow after) ∧
    (∀ i, InstructionAt code pos i → (∃ op, i = .binary op) ∨ i = .ineg →
      ∀ capacity after, m.turn code ≠ .faulted (.stackOverflow capacity) after) ∧
    ∀ offset, (Cursor.instruction { code, pos }).1 ≠ .error (.endOfCode offset) := by
  have hw := hm.within
  refine ⟨?_, ?_, ?_, ?_, ?_⟩
  · intro kind
    constructor
    · rintro ⟨after, h⟩
      exact cause_of_turn hw hpc hpos h
    · intro h
      exact turn_of_cause hw hpc h
  · intro kind after h logged turns log
    unfold run
    rw [h, ← hpc]
  · intro hno
    rcases turn_cases code m with ⟨hend, -⟩ | ⟨hout, -⟩ | ⟨pos', hpc', -, ht⟩
    · omega
    · omega
    obtain rfl : pos' = pos := Int.ofNat.inj (hpc'.symm.trans hpc)
    rcases ht with ⟨_, _, _, e⟩ | ⟨_, _, _, e⟩ | ⟨i, hi, ⟨flow, after, -, e⟩ | ⟨_, _, _, e⟩⟩
    · exact absurd (cause_of_turn hw hpc hpos e) (hno _)
    · exact absurd (cause_of_turn hw hpc hpos e) (hno _)
    · exact ⟨i, flow, after, hi, e⟩
    · exact absurd (cause_of_turn hw hpc hpos e) (hno _)
  · -- An overflow has a cause for constants and local variables only.
    intro i hi hx capacity after h
    cases cause_of_turn hw hpc hpos h with
    | constantFull hj hv =>
      obtain rfl := hi.unique hj
      rcases hx with ⟨op, rfl⟩ | rfl <;> cases hv
    | loadFull hj hx' =>
      obtain rfl := hi.unique hj
      rcases hx with ⟨op, rfl⟩ | rfl <;> cases hx'
  · intro offset h
    rcases Cursor.instruction_cases { code, pos } with
      ⟨hle, -⟩ | ⟨_, -, -, e⟩ | ⟨_, -, -, e⟩ | ⟨_, -, e⟩
    · exact absurd hpos (Nat.not_lt_of_le hle)
    all_goals
      rw [e] at h
      cases h

/-- One divided by zero, on a stack that is full just before. -/
theorem fault_causes_division :
    FaultCause ⟨2, 0⟩ #[0x04, 0x03, 0x6c] 2 [0, 1] .divisionByZero ∧
      ∃ after, turn #[0x04, 0x03, 0x6c] ⟨⟨[0, 1], 0⟩, 2, #[]⟩ = .faulted .divisionByZero after := by
  have hm : Reachable ⟨2, 0⟩ #[0x04, 0x03, 0x6c] ⟨⟨[0, 1], 0⟩, 2, #[]⟩ :=
    .tail (b := ⟨⟨[1], 1⟩, 1, #[]⟩) (.single ⟨.iconst 1, by decide⟩) ⟨.iconst 0, by decide⟩
  have hi : InstructionAt #[0x04, 0x03, 0x6c] 2 (.binary .div) := by decide
  have hc : FaultCause ⟨2, 0⟩ #[0x04, 0x03, 0x6c] 2 [0, 1] .divisionByZero :=
    .zeroDivisor hi (.inl rfl) rfl
  exact ⟨hc, ((fault_causes hm rfl (by decide)).1 _).2 hc⟩

end Machine

end StackMachine
