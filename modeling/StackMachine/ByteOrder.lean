/-!
# Byte order

How numbers are laid out in bytes. Code holds its 16-bit operands with the high byte first; a
file header holds its fields with the low byte first.
-/

namespace StackMachine

/-! ### High byte first -/

namespace BigEndian

/-- The two bytes of a signed 16-bit number. -/
def bytes (v : Int16) : List UInt8 :=
  [UInt8.ofNat (v.toUInt16.toNat / 256), UInt8.ofNat v.toUInt16.toNat]

/-- The signed 16-bit number in two bytes. -/
def value (high low : UInt8) : Int16 := (UInt16.ofNat (256 * high.toNat + low.toNat)).toInt16

@[simp] theorem value_bytes (v : Int16) :
    value (UInt8.ofNat (v.toUInt16.toNat / 256)) (UInt8.ofNat v.toUInt16.toNat) = v := by
  have h : v.toUInt16.toNat < 65536 := v.toUInt16.toNat_lt
  have e : 256 * (v.toUInt16.toNat / 256 % 256) + v.toUInt16.toNat % 256 = v.toUInt16.toNat := by
    omega
  simp [value, e]

@[simp] theorem bytes_value (high low : UInt8) : bytes (value high low) = [high, low] := by
  have h := high.toNat_lt
  have l := low.toNat_lt
  have e : (256 * high.toNat + low.toNat) % 65536 = 256 * high.toNat + low.toNat := by omega
  simp only [bytes, value, UInt16.toUInt16_toInt16, UInt16.toNat_ofNat', e]
  congr 1
  · apply UInt8.toNat_inj.1
    simp only [UInt8.toNat_ofNat']
    omega
  · congr 1
    apply UInt8.toNat_inj.1
    simp only [UInt8.toNat_ofNat']
    omega

end BigEndian

/-! ### Low byte first -/

namespace LittleEndian

/-- The lowest `width` bytes of a number. -/
def bytes : (width : Nat) → Nat → List UInt8
  | 0, _ => []
  | width + 1, n => UInt8.ofNat n :: bytes width (n / 256)

/-- The number in a byte string. -/
def value : List UInt8 → Nat
  | [] => 0
  | b :: rest => b.toNat + 256 * value rest

@[simp] theorem length_bytes (width n : Nat) : (bytes width n).length = width := by
  induction width generalizing n with
  | zero => rfl
  | succ width ih => simp [bytes, ih]

end LittleEndian

end StackMachine
