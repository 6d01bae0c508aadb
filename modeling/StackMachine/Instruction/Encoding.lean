import StackMachine.Cursor
import StackMachine.Instruction

/-!
# Encoding

Writing instructions as bytes: the opcode and behind it the operand. Only a short form whose
operand no opcode holds has no encoding.
-/

namespace StackMachine

/-- The bytes of an operand. -/
def Immediate.bytes : (i : Immediate) → i.Operand → List UInt8
  | .none, _ => []
  | .i8, v => [v.toUInt8]
  | .i16, v | .branchOffset, v => BigEndian.bytes v
  | .localIndex, v => [v]

@[simp] theorem Immediate.length_bytes (i : Immediate) (v : i.Operand) :
    (i.bytes v).length = i.width := by
  cases i <;> rfl

/-- A short form that no opcode holds. -/
structure NoShortForm where
  instruction : Instruction
  deriving Repr, DecidableEq

/-- The wording of the error, which names the instruction by its form and its operand. -/
def NoShortForm.message (e : NoShortForm) : String :=
  (match e.instruction with
    | .iconst v => "iconst " ++ toString v.toInt
    | .iloadShort index => "IloadN(" ++ toString index.toNat ++ ")"
    | .istoreShort index => "IstoreN(" ++ toString index.toNat ++ ")"
    | i => i.text) ++ " has no short-form encoding"

namespace Instruction

/-- The opcode byte of an instruction and the bytes of its operand. -/
def bytes (i : Instruction) : List UInt8 := i.opcode.byte :: i.opcode.immediate.bytes i.operand

@[simp] theorem length_bytes (i : Instruction) : i.bytes.length = i.size := by
  simp [bytes, size, Opcode.size, Nat.add_comm]

/-- The encoding of an instruction. -/
def encode (i : Instruction) : Except NoShortForm (List UInt8) :=
  if i.Encodable then .ok i.bytes else .error { instruction := i }

/-- The encodings of a list of instructions, one behind the other; the first instruction without
an encoding is reported. -/
def encodeAll (is : List Instruction) : Except NoShortForm Code := do
  return (← is.mapM encode).flatten.toArray

end Instruction

end StackMachine
