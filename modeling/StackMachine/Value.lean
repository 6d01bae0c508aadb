/-!
# Values

The machine computes on signed words of 32 bits. Sums, differences, products and negations wrap
around; quotients are truncated toward zero and a remainder has the sign of its dividend, so that
the quotient of the least value by `-1` wraps around to that value again. A zero divisor has
neither a quotient nor a remainder.
-/

namespace StackMachine

/-- A word of the machine: a signed integer of 32 bits. -/
abbrev Value := Int32

/-- An arithmetic operation on two values. -/
inductive BinaryOp where
  /-- The sum. -/
  | add
  /-- The left operand less the right one. -/
  | sub
  /-- The product. -/
  | mul
  /-- The quotient of the left operand by the right one. -/
  | div
  /-- The remainder of that division. -/
  | rem
  deriving Repr, DecidableEq

/-- The result of an operation on its left and right operand; a division by zero has none. -/
def BinaryOp.eval? : BinaryOp → Value → Value → Option Value
  | .add, a, b => some (a + b)
  | .sub, a, b => some (a - b)
  | .mul, a, b => some (a * b)
  | .div, a, b => if b = 0 then none else some (a / b)
  | .rem, a, b => if b = 0 then none else some (a % b)

/-- A signed comparison of two values. -/
inductive Comparison where
  /-- The operands are equal. -/
  | eq
  /-- The operands differ. -/
  | ne
  /-- The left operand is less than the right one. -/
  | lt
  /-- The left operand is not less than the right one. -/
  | ge
  /-- The left operand is greater than the right one. -/
  | gt
  /-- The left operand is not greater than the right one. -/
  | le
  deriving Repr, DecidableEq

/-- Whether a comparison holds of its left and right operand. -/
def Comparison.holds : Comparison → Value → Value → Bool
  | .eq, a, b => a == b
  | .ne, a, b => a != b
  | .lt, a, b => a < b
  | .ge, a, b => b ≤ a
  | .gt, a, b => b < a
  | .le, a, b => a ≤ b

end StackMachine
