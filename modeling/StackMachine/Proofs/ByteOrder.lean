import Mathlib.Algebra.Ring.Nat
import StackMachine.ByteOrder

/-!
# Numbers as bytes, the low byte first

A number that fits into the bytes it is given is the number in them, and bytes are those of the
number in them.
-/

namespace StackMachine

namespace LittleEndian

theorem value_lt (bs : List UInt8) : value bs < 256 ^ bs.length := by
  induction bs with
  | nil => simp [value]
  | cons b bs ih =>
    have h := b.toNat_lt
    simp only [value, List.length_cons, Nat.pow_succ]
    omega

theorem value_bytes {width n : Nat} (h : n < 256 ^ width) : value (bytes width n) = n := by
  induction width generalizing n with
  | zero => simp at h; simp [bytes, value, h]
  | succ width ih =>
    have h' : n / 256 < 256 ^ width := by
      rw [Nat.pow_succ] at h
      omega
    simp only [bytes, value, ih h', UInt8.toNat_ofNat']
    omega

theorem bytes_value (bs : List UInt8) : bytes bs.length (value bs) = bs := by
  induction bs with
  | nil => rfl
  | cons b bs ih =>
    have h := b.toNat_lt
    have e : (b.toNat + 256 * value bs) / 256 = value bs := by omega
    have l : UInt8.ofNat (b.toNat + 256 * value bs) = b := by
      apply UInt8.toNat_inj.1
      simp only [UInt8.toNat_ofNat']
      omega
    simp only [List.length_cons, bytes, value, e, ih, l]

end LittleEndian

end StackMachine
