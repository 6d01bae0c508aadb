import StackMachine.Value

/-!
# Arithmetic on words

The operations of the machine are those on integers, wrapped around into the words: a result that
is too large for a word is taken modulo `2 ^ 32` to the number of a word again.
-/

namespace StackMachine

/-- The number of a word that an integer wraps around to, the same one modulo `2 ^ 32`. -/
def wrap (n : Int) : Int := n.bmod Int32.size

@[simp] theorem wrap_toInt (v : Value) : wrap v.toInt = v.toInt := Int32.toInt_bmod_size v

/-- The result of an operation on integers, of whatever size. The quotient is truncated toward zero,
and the remainder has the sign of the dividend. -/
def BinaryOp.exact : BinaryOp → Int → Int → Int
  | .add, a, b => a + b
  | .sub, a, b => a - b
  | .mul, a, b => a * b
  | .div, a, b => a.tdiv b
  | .rem, a, b => a.tmod b

/-- There is no result exactly if the divisor is zero. -/
theorem BinaryOp.eval?_eq_none_iff {op : BinaryOp} {left right : Value} :
    op.eval? left right = none ↔ (op = .div ∨ op = .rem) ∧ right = 0 := by
  cases op <;> simp [eval?]

/-- The result of an operation on words is the one on their numbers, wrapped around. -/
theorem BinaryOp.toInt_of_eval? {op : BinaryOp} {a b v : Value} (h : op.eval? a b = some v) :
    v.toInt = wrap (op.exact a.toInt b.toInt) := by
  cases op with
  | add =>
    cases h
    exact Int32.toInt_add a b
  | sub =>
    cases h
    exact Int32.toInt_sub a b
  | mul =>
    cases h
    exact Int32.toInt_mul a b
  | div =>
    obtain ⟨-, rfl⟩ : b ≠ 0 ∧ a / b = v := by simpa [eval?] using h
    exact Int32.toInt_div a b
  | rem =>
    obtain ⟨-, rfl⟩ : b ≠ 0 ∧ a % b = v := by simpa [eval?] using h
    rw [exact, ← Int32.toInt_mod, wrap_toInt]

theorem BinaryOp.exists_eval? {op : BinaryOp} {a b : Value}
    (h : ¬ ((op = .div ∨ op = .rem) ∧ b.toInt = 0)) :
    ∃ v, op.eval? a b = some v ∧ v.toInt = wrap (op.exact a.toInt b.toInt) := by
  obtain ⟨v, hv⟩ : ∃ v, op.eval? a b = some v := by
    rw [← Option.ne_none_iff_exists', Ne, eval?_eq_none_iff]
    rintro ⟨hop, rfl⟩
    exact h ⟨hop, rfl⟩
  exact ⟨v, hv, toInt_of_eval? hv⟩

end StackMachine
