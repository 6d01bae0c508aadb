import StackMachine.Opcode

/-!
# Instructions

An instruction is an opcode together with its operand. `Instruction.ofOpcode` puts the two
together, `Instruction.opcode` and `Instruction.operand` take them apart again, and
`Instruction.ofOpcode_operand` says that nothing is lost on the way.

The short forms hold a whole byte here, although their opcodes have room for a few values only:
`Instruction.Encodable` tells which of them have an encoding.
-/

namespace StackMachine

/-- One instruction of the machine. -/
inductive Instruction where
  /-- Do nothing. -/
  | nop
  /-- Push a constant that the opcode holds. -/
  | iconst (v : Int8)
  /-- Push a number of one byte. -/
  | bipush (v : Int8)
  /-- Push a number of two bytes. -/
  | sipush (v : Int16)
  /-- Push a local variable. -/
  | iload (index : UInt8)
  /-- Push a local variable that the opcode names. -/
  | iloadShort (index : UInt8)
  /-- Pop into a local variable. -/
  | istore (index : UInt8)
  /-- Pop into a local variable that the opcode names. -/
  | istoreShort (index : UInt8)
  /-- Replace the two values on top by the result of an operation on them. -/
  | binary (op : BinaryOp)
  /-- Negate the value on top. -/
  | ineg
  /-- Pop two values and branch by the offset if the comparison holds of them. -/
  | ifIcmp (cond : Comparison) (offset : Int16)
  /-- Branch by the offset, which counts from the opcode of the branch. -/
  | goto (offset : Int16)
  /-- Return the value on top. -/
  | ireturn
  /-- Return without a value. -/
  | returnVoid
  /-- Stop. -/
  | halt
  deriving Repr, DecidableEq

namespace Instruction

/-! ### Opcode and operand -/

/-- The number of a constant among the short forms; a constant outside them counts as the last. -/
def constantNumber (v : Int8) : Fin 7 :=
  if h : -1 ≤ v.toInt ∧ v.toInt ≤ 5 then ⟨(v.toInt + 1).toNat, by omega⟩ else Fin.last 6

/-- The slot of an index among the short forms; an index outside them counts as the last. -/
def shortSlot (index : UInt8) : Fin 4 :=
  if h : index.toNat < 4 then ⟨index.toNat, h⟩ else Fin.last 3

/-- The opcode of an instruction. -/
def opcode : Instruction → Opcode
  | .nop => .nop
  | .iconst v => .iconst (constantNumber v)
  | .bipush _ => .bipush
  | .sipush _ => .sipush
  | .iload _ => .iload
  | .iloadShort index => .iloadShort (shortSlot index)
  | .istore _ => .istore
  | .istoreShort index => .istoreShort (shortSlot index)
  | .binary op => .binary op
  | .ineg => .ineg
  | .ifIcmp cond _ => .ifIcmp cond
  | .goto _ => .goto
  | .ireturn => .ireturn
  | .returnVoid => .returnVoid
  | .halt => .halt

/-- What stands behind the opcode of an instruction. -/
def operand : (i : Instruction) → i.opcode.immediate.Operand
  | .nop => ()
  | .iconst _ => ()
  | .bipush v => v
  | .sipush v => v
  | .iload index => index
  | .iloadShort _ => ()
  | .istore index => index
  | .istoreShort _ => ()
  | .binary _ => ()
  | .ineg => ()
  | .ifIcmp _ offset => offset
  | .goto offset => offset
  | .ireturn => ()
  | .returnVoid => ()
  | .halt => ()

/-- The instruction with a given opcode and operand. -/
def ofOpcode : (op : Opcode) → op.immediate.Operand → Instruction
  | .nop, _ => .nop
  | .iconst k, _ => .iconst (Int8.ofInt (k.val - 1))
  | .bipush, v => .bipush v
  | .sipush, v => .sipush v
  | .iload, index => .iload index
  | .iloadShort slot, _ => .iloadShort (UInt8.ofNat slot)
  | .istore, index => .istore index
  | .istoreShort slot, _ => .istoreShort (UInt8.ofNat slot)
  | .binary op, _ => .binary op
  | .ineg, _ => .ineg
  | .ifIcmp cond, offset => .ifIcmp cond offset
  | .goto, offset => .goto offset
  | .ireturn, _ => .ireturn
  | .returnVoid, _ => .returnVoid
  | .halt, _ => .halt

theorem constantNumber_ofNumber : ∀ k : Fin 7, constantNumber (Int8.ofInt (k.val - 1)) = k := by
  decide

theorem shortSlot_ofSlot : ∀ slot : Fin 4, shortSlot (UInt8.ofNat slot) = slot := by
  decide

@[simp] theorem opcode_ofOpcode (op : Opcode) (v : op.immediate.Operand) :
    (ofOpcode op v).opcode = op := by
  cases op with
  | iconst k => exact congrArg _ (constantNumber_ofNumber k)
  | iloadShort slot => exact congrArg _ (shortSlot_ofSlot slot)
  | istoreShort slot => exact congrArg _ (shortSlot_ofSlot slot)
  | _ => rfl

/-! ### Short forms -/

/-- The instruction has an encoding: it is no short form, or its operand is among those that the
opcodes hold. -/
def Encodable : Instruction → Prop
  | .iconst v => -1 ≤ v.toInt ∧ v.toInt ≤ 5
  | .iloadShort index | .istoreShort index => index.toNat < 4
  | _ => True

instance : DecidablePred Encodable := fun i => by
  cases i <;> unfold Encodable <;> infer_instance

theorem encodable_ofOpcode (op : Opcode) (v : op.immediate.Operand) :
    (ofOpcode op v).Encodable := by
  have constants : ∀ k : Fin 7, Encodable (.iconst (Int8.ofInt (k.val - 1))) := by decide
  have slots : ∀ slot : Fin 4, (UInt8.ofNat slot).toNat < 4 := by decide
  cases op with
  | iconst k => exact constants k
  | iloadShort slot => exact slots slot
  | istoreShort slot => exact slots slot
  | _ => trivial

/-- Taking an encodable instruction apart loses nothing. -/
theorem ofOpcode_operand {i : Instruction} (h : i.Encodable) : ofOpcode i.opcode i.operand = i := by
  cases i with
  | iconst v =>
    have hv : -1 ≤ v.toInt ∧ v.toInt ≤ 5 := h
    have e : ((constantNumber v).val : Int) - 1 = v.toInt := by
      simp only [constantNumber, dif_pos hv]
      omega
    simp only [opcode, ofOpcode, e, Int8.ofInt_toInt]
  | iloadShort index =>
    have hi : index.toNat < 4 := h
    simp [ofOpcode, opcode, shortSlot, hi]
  | istoreShort index =>
    have hi : index.toNat < 4 := h
    simp [ofOpcode, opcode, shortSlot, hi]
  | _ => rfl

/-! ### Extent, target and text -/

/-- The bytes that an instruction takes. -/
def size (i : Instruction) : Nat := i.opcode.size

/-- How far a branch goes from its own opcode byte; other instructions do not branch. -/
def branchOffset? : Instruction → Option Int16
  | .ifIcmp _ offset | .goto offset => some offset
  | _ => none

end Instruction

/-- The text of an operand, if there is one: its number in decimal. -/
def Immediate.text? : (i : Immediate) → i.Operand → Option String
  | .none, _ => Option.none
  | .i8, v => some (toString v.toInt)
  | .i16, v | .branchOffset, v => some (toString v.toInt)
  | .localIndex, v => some (toString v.toNat)

/-- The text of an instruction: its mnemonic and, behind a space, its operand. -/
def Instruction.text (i : Instruction) : String :=
  match Immediate.text? _ i.operand with
  | none => i.opcode.mnemonic
  | some operand => i.opcode.mnemonic ++ " " ++ operand

end StackMachine
