import StackMachine.Value

/-!
# Opcodes

The first byte of every instruction names its operation and so decides what follows it: nothing,
a number of one or two bytes, the index of a local variable, or the distance of a branch. Some
operations have short forms, in which the opcode itself holds the operand.
-/

namespace StackMachine

/-! ### Operands -/

/-- What stands behind the opcode of an instruction. -/
inductive Immediate where
  /-- Nothing. -/
  | none
  /-- A signed number of one byte. -/
  | i8
  /-- A signed number of two bytes. -/
  | i16
  /-- The index of a local variable, one byte. -/
  | localIndex
  /-- The signed distance from the branch to its target, two bytes. -/
  | branchOffset
  deriving Repr, DecidableEq

namespace Immediate

/-- How many bytes it takes. -/
def width : Immediate → Nat
  | .none => 0
  | .i8 | .localIndex => 1
  | .i16 | .branchOffset => 2

/-- The values that such an operand has. -/
abbrev Operand : Immediate → Type
  | .none => Unit
  | .i8 => Int8
  | .i16 | .branchOffset => Int16
  | .localIndex => UInt8

end Immediate

/-! ### The opcodes -/

/-- The operation of an instruction. -/
inductive Opcode where
  /-- Do nothing. -/
  | nop
  /-- Push the constant `k - 1`. -/
  | iconst (k : Fin 7)
  /-- Push a number of one byte. -/
  | bipush
  /-- Push a number of two bytes. -/
  | sipush
  /-- Push a local variable. -/
  | iload
  /-- Push one of the first four local variables. -/
  | iloadShort (slot : Fin 4)
  /-- Pop into a local variable. -/
  | istore
  /-- Pop into one of the first four local variables. -/
  | istoreShort (slot : Fin 4)
  /-- Replace two operands by the result of an operation. -/
  | binary (op : BinaryOp)
  /-- Negate the operand on top. -/
  | ineg
  /-- Pop two operands and branch if a comparison holds of them. -/
  | ifIcmp (cond : Comparison)
  /-- Branch. -/
  | goto
  /-- Return the operand on top. -/
  | ireturn
  /-- Return without a value. -/
  | returnVoid
  /-- Stop. -/
  | halt
  deriving Repr, DecidableEq

namespace Opcode

/-- Every opcode, in the order of their bytes. -/
def all : List Opcode :=
  [.nop, .iconst 0, .iconst 1, .iconst 2, .iconst 3, .iconst 4, .iconst 5, .iconst 6, .bipush,
   .sipush, .iload, .iloadShort 0, .iloadShort 1, .iloadShort 2, .iloadShort 3, .istore,
   .istoreShort 0, .istoreShort 1, .istoreShort 2, .istoreShort 3, .binary .add, .binary .sub,
   .binary .mul, .binary .div, .binary .rem, .ineg, .ifIcmp .eq, .ifIcmp .ne, .ifIcmp .lt,
   .ifIcmp .ge, .ifIcmp .gt, .ifIcmp .le, .goto, .ireturn, .returnVoid, .halt]

/-- The byte of an opcode. -/
def byte : Opcode → UInt8
  | .nop => 0x00
  | .iconst k => 0x02 + UInt8.ofNat k
  | .bipush => 0x10
  | .sipush => 0x11
  | .iload => 0x15
  | .iloadShort slot => 0x1a + UInt8.ofNat slot
  | .istore => 0x36
  | .istoreShort slot => 0x3b + UInt8.ofNat slot
  | .binary .add => 0x60
  | .binary .sub => 0x64
  | .binary .mul => 0x68
  | .binary .div => 0x6c
  | .binary .rem => 0x70
  | .ineg => 0x74
  | .ifIcmp .eq => 0x9f
  | .ifIcmp .ne => 0xa0
  | .ifIcmp .lt => 0xa1
  | .ifIcmp .ge => 0xa2
  | .ifIcmp .gt => 0xa3
  | .ifIcmp .le => 0xa4
  | .goto => 0xa7
  | .ireturn => 0xac
  | .returnVoid => 0xb1
  | .halt => 0xff

/-- The name of an opcode in assembly and in listings. -/
def mnemonic : Opcode → String
  | .nop => "nop"
  | .iconst 0 => "iconst_m1"
  | .iconst 1 => "iconst_0"
  | .iconst 2 => "iconst_1"
  | .iconst 3 => "iconst_2"
  | .iconst 4 => "iconst_3"
  | .iconst 5 => "iconst_4"
  | .iconst 6 => "iconst_5"
  | .bipush => "bipush"
  | .sipush => "sipush"
  | .iload => "iload"
  | .iloadShort 0 => "iload_0"
  | .iloadShort 1 => "iload_1"
  | .iloadShort 2 => "iload_2"
  | .iloadShort 3 => "iload_3"
  | .istore => "istore"
  | .istoreShort 0 => "istore_0"
  | .istoreShort 1 => "istore_1"
  | .istoreShort 2 => "istore_2"
  | .istoreShort 3 => "istore_3"
  | .binary .add => "iadd"
  | .binary .sub => "isub"
  | .binary .mul => "imul"
  | .binary .div => "idiv"
  | .binary .rem => "irem"
  | .ineg => "ineg"
  | .ifIcmp .eq => "if_icmpeq"
  | .ifIcmp .ne => "if_icmpne"
  | .ifIcmp .lt => "if_icmplt"
  | .ifIcmp .ge => "if_icmpge"
  | .ifIcmp .gt => "if_icmpgt"
  | .ifIcmp .le => "if_icmple"
  | .goto => "goto"
  | .ireturn => "ireturn"
  | .returnVoid => "return"
  | .halt => "halt"

/-- What stands behind an opcode. -/
def immediate : Opcode → Immediate
  | .bipush => .i8
  | .sipush => .i16
  | .iload | .istore => .localIndex
  | .ifIcmp _ | .goto => .branchOffset
  | _ => .none

/-- The bytes of a whole instruction with this opcode. -/
def size (op : Opcode) : Nat := 1 + op.immediate.width

/-- The opcode of a byte, if it is the byte of one. -/
def ofByte? (b : UInt8) : Option Opcode := all.find? (·.byte == b)

/-- The opcode of a mnemonic, if it is the mnemonic of one. -/
def ofMnemonic? (name : String) : Option Opcode := all.find? (·.mnemonic == name)

theorem mem_all (op : Opcode) : op ∈ all := by
  cases op with
  | iconst k => revert k; decide
  | iloadShort slot => revert slot; decide
  | istoreShort slot => revert slot; decide
  | binary op => cases op <;> decide
  | ifIcmp cond => cases cond <;> decide
  | _ => decide

/-- Two opcodes with one byte are the same. -/
theorem byte_injective {a b : Opcode} (h : a.byte = b.byte) : a = b := by
  have key : ∀ a ∈ all, ∀ b ∈ all, a.byte = b.byte → a = b := by decide +kernel
  exact key a (mem_all a) b (mem_all b) h

/-- Two opcodes with one mnemonic are the same. -/
theorem mnemonic_injective {a b : Opcode} (h : a.mnemonic = b.mnemonic) : a = b := by
  have key : ∀ a ∈ all, ∀ b ∈ all, a.mnemonic = b.mnemonic → a = b := by decide +kernel
  exact key a (mem_all a) b (mem_all b) h

theorem ofByte?_eq_some_iff {b : UInt8} {op : Opcode} : ofByte? b = some op ↔ op.byte = b := by
  constructor
  · intro h
    simpa using List.find?_some h
  · rintro rfl
    have : (all.find? (·.byte == op.byte)).isSome := by
      simpa using ⟨op, mem_all op, rfl⟩
    obtain ⟨op', h⟩ := Option.isSome_iff_exists.1 this
    have e : op' = op := byte_injective (by simpa using List.find?_some h)
    rw [ofByte?, h, e]

theorem ofMnemonic?_eq_some_iff {name : String} {op : Opcode} :
    ofMnemonic? name = some op ↔ op.mnemonic = name := by
  constructor
  · intro h
    simpa using List.find?_some h
  · rintro rfl
    have : (all.find? (·.mnemonic == op.mnemonic)).isSome := by
      simpa using ⟨op, mem_all op, rfl⟩
    obtain ⟨op', h⟩ := Option.isSome_iff_exists.1 this
    have e : op' = op := mnemonic_injective (by simpa using List.find?_some h)
    rw [ofMnemonic?, h, e]

end Opcode

end StackMachine
