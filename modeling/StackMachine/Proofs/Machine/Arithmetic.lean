import Mathlib.Data.Int.ModEq
import StackMachine.Proofs.Machine.Operations
import StackMachine.Proofs.Value

/-!
# Arithmetic modulo 2 ^ 32

A sum, a difference, a product or a negation on the machine is the one word whose number is
congruent to the exact result modulo `2 ^ 32`. A quotient is truncated toward zero, and the
remainder is what is left of the dividend; only the quotient of the least word by `-1` is not a
word, and then it wraps around like the others. `Machine.arithmetic_modulo_words` puts all of this
together, with what the machine makes of a result and of the lack of one.
-/

namespace StackMachine

/-- Two words with congruent numbers are the same. -/
theorem eq_of_toInt_modEq {v w : Value} (h : v.toInt ≡ w.toInt [ZMOD 2 ^ 32]) : v = w := by
  have hv := v.le_toInt
  have hv' := v.toInt_lt
  have hw := w.le_toInt
  have hw' := w.toInt_lt
  rw [Int.ModEq] at h
  exact Int32.toInt_inj.1 (by omega)

theorem wrap_modEq (n : Int) : wrap n ≡ n [ZMOD 2 ^ 32] := Int.bmod_emod

/-- The word is the only one with a number that is congruent to an integer. -/
def IsResidue (v : Value) (n : Int) : Prop := ∀ w : Value, w = v ↔ w.toInt ≡ n [ZMOD 2 ^ 32]

theorem isResidue_of_toInt {v : Value} {n : Int} (h : v.toInt = wrap n) : IsResidue v n := by
  have hv : v.toInt ≡ n [ZMOD 2 ^ 32] := h ▸ wrap_modEq n
  intro w
  constructor
  · rintro rfl
    exact hv
  · intro hw
    exact eq_of_toInt_modEq (hw.trans hv.symm)

theorem BinaryOp.isResidue (op : BinaryOp) {a b v : Value} (h : op.eval? a b = some v) :
    IsResidue v (op.exact a.toInt b.toInt) :=
  isResidue_of_toInt (toInt_of_eval? h)

theorem isResidue_neg (a : Value) : IsResidue (-a) (-a.toInt) :=
  isResidue_of_toInt (Int32.toInt_neg a)

/-- Words with the quotient and the remainder of two others. The quotient of the least word by `-1`
is the only one whose number is another one. -/
structure IsDivision (a b q r : Value) : Prop where
  modEq : a.toInt ≡ q.toInt * b.toInt + r.toInt [ZMOD 2 ^ 32]
  remainder_lt : r.toInt.natAbs < b.toInt.natAbs
  remainder_sign : r.toInt = 0 ∨ r.toInt.sign = a.toInt.sign
  exact : ¬ (a.toInt = -2 ^ 31 ∧ b.toInt = -1) →
    q.toInt = a.toInt.tdiv b.toInt ∧ a.toInt = q.toInt * b.toInt + r.toInt
  least : a.toInt = -2 ^ 31 ∧ b.toInt = -1 → q.toInt = -2 ^ 31 ∧ r.toInt = 0

/-- A quotient that does not wrap around. -/
theorem toInt_div_of_not_least {a b : Value} (h : ¬ (a.toInt = -2 ^ 31 ∧ b.toInt = -1)) :
    (a / b).toInt = a.toInt.tdiv b.toInt := by
  by_cases hone : b = -1
  · refine Int32.toInt_div_of_ne_left a b ?_
    rintro rfl
    exact h ⟨Int32.toInt_minValue, hone ▸ rfl⟩
  · exact Int32.toInt_div_of_ne_right a b hone

theorem isDivision {a b : Value} (hb : b ≠ 0) : IsDivision a b (a / b) (a % b) := by
  have hb' : b.toInt ≠ 0 := fun h => hb (Int32.toInt_inj.1 h)
  have hq : (a / b).toInt = wrap (a.toInt.tdiv b.toInt) := Int32.toInt_div a b
  have hr : (a % b).toInt = a.toInt.tmod b.toInt := Int32.toInt_mod a b
  have ha : a.toInt.tdiv b.toInt * b.toInt + a.toInt.tmod b.toInt = a.toInt := by
    rw [Int.mul_comm, Int.mul_tdiv_add_tmod]
  constructor
  case modEq =>
    rw [hq, hr]
    have hmul := (wrap_modEq (a.toInt.tdiv b.toInt)).mul_right b.toInt
    exact (ha ▸ hmul.add_right (a.toInt.tmod b.toInt)).symm
  case remainder_lt =>
    rw [hr, Int.natAbs_tmod]
    exact Nat.mod_lt _ (Int.natAbs_pos.2 hb')
  case remainder_sign =>
    rw [hr, ← Int.sign_eq_zero_iff_zero, Int.sign_tmod]
    split_ifs
    · exact .inl rfl
    · exact .inr rfl
  case exact =>
    intro h
    have hexact := toInt_div_of_not_least h
    refine ⟨hexact, ?_⟩
    rw [hexact, hr, ha]
  case least =>
    rintro ⟨hleast, hone⟩
    obtain rfl : a = Int32.minValue := Int32.toInt_inj.1 (hleast.trans Int32.toInt_minValue.symm)
    obtain rfl : b = -1 := Int32.toInt_inj.1 hone
    decide

namespace Machine

/-- **Arithmetic is exact modulo `2 ^ 32`.** The results of the operations on two words are those
on their numbers, wrapped around into the words. Exactly the divisions by zero have no result, and
those are faults. -/
theorem arithmetic_modulo_words (a b : Value) :
    (∃ v, BinaryOp.add.eval? a b = some v ∧ IsResidue v (a.toInt + b.toInt)) ∧
    (∃ v, BinaryOp.sub.eval? a b = some v ∧ IsResidue v (a.toInt - b.toInt)) ∧
    (∃ v, BinaryOp.mul.eval? a b = some v ∧ IsResidue v (a.toInt * b.toInt)) ∧
    IsResidue (-a) (-a.toInt) ∧
    (BinaryOp.div.eval? a b = none ↔ b = 0) ∧ (BinaryOp.rem.eval? a b = none ↔ b = 0) ∧
    (b ≠ 0 → ∃ q r, BinaryOp.div.eval? a b = some q ∧ BinaryOp.rem.eval? a b = some r ∧
      IsDivision a b q r) ∧
    (∀ (m : Machine) (values : List Value) (room : Nat), m.stack = ⟨b :: a :: values, room⟩ →
      ∀ op : BinaryOp,
        (∀ v, op.eval? a b = some v →
          binary op m = .ok () { m with stack := ⟨v :: values, room + 1⟩ }) ∧
        (op.eval? a b = none →
          binary op m = .error .divisionByZero { m with stack := ⟨values, room + 2⟩ })) ∧
    (∀ (m : Machine) (values : List Value) (room : Nat), m.stack = ⟨a :: values, room⟩ →
      negate m = .ok () { m with stack := ⟨-a :: values, room⟩ }) := by
  refine ⟨⟨_, rfl, BinaryOp.add.isResidue rfl⟩, ⟨_, rfl, BinaryOp.sub.isResidue rfl⟩,
    ⟨_, rfl, BinaryOp.mul.isResidue rfl⟩, isResidue_neg a, ?_, ?_, ?_, ?_, ?_⟩
  · simp [BinaryOp.eval?_eq_none_iff]
  · simp [BinaryOp.eval?_eq_none_iff]
  · intro hb
    exact ⟨_, _, if_neg hb, if_neg hb, isDivision hb⟩
  · intro m values room hm op
    rw [binary_of_cons hm]
    constructor
    · intro v hv
      rw [hv]
    · intro hv
      rw [hv]
  · intro m values room hm
    exact negate_of_cons hm

/-- The least word by `-1`, which wraps around, and by zero, which is a fault. -/
theorem arithmetic_modulo_words_least :
    let least : Value := Int32.minValue
    let m : Machine := { stack := ⟨[-1, least], 0⟩, pc := 0, locals := #[] }
    let m₀ : Machine := { stack := ⟨[0, least], 0⟩, pc := 0, locals := #[] }
    (-1 : Value) ≠ 0 ∧ BinaryOp.div.eval? least (-1) = some least ∧
      BinaryOp.div.eval? least 0 = none ∧
      (∃ q r, BinaryOp.div.eval? least (-1) = some q ∧ BinaryOp.rem.eval? least (-1) = some r ∧
        q.toInt = -2 ^ 31 ∧ r.toInt = 0) ∧
      binary .div m = .ok () { m with stack := ⟨[least], 1⟩ } ∧
      binary .div m₀ = .error .divisionByZero { m₀ with stack := ⟨[], 2⟩ } ∧
      negate m = .ok () { m with stack := ⟨[1, least], 0⟩ } := by
  intro least m m₀
  have hone : (-1 : Value) ≠ 0 := by decide
  have hdiv : BinaryOp.div.eval? least (-1) = some least := by decide
  have hzero : BinaryOp.div.eval? least 0 = none := rfl
  obtain ⟨-, -, -, -, -, -, hdivision, hbinary, -⟩ := arithmetic_modulo_words least (-1)
  obtain ⟨-, -, -, -, -, -, -, hfault, -⟩ := arithmetic_modulo_words least 0
  obtain ⟨-, -, -, -, -, -, -, -, hnegate⟩ := arithmetic_modulo_words (-1) 0
  obtain ⟨q, r, hq, hr, h⟩ := hdivision hone
  exact ⟨hone, hdiv, hzero, ⟨q, r, hq, hr, h.least ⟨rfl, rfl⟩⟩,
    (hbinary m [] 0 rfl .div).1 least hdiv, (hfault m₀ [] 0 rfl .div).2 hzero,
    hnegate m [least] 0 rfl⟩

end Machine

end StackMachine
