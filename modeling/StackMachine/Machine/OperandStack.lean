import StackMachine.Value

/-!
# The operand stack

The operands of instructions live on a stack that never holds more than a fixed number of values.
A stack is kept as its values and the room that is left above them, so that the two add up to
that number whatever is pushed and popped.
-/

namespace StackMachine

/-- A stack of values with a fixed capacity. -/
structure OperandStack where
  /-- The values, the top one first. -/
  values : List Value
  /-- How many more values fit. -/
  room : Nat
  deriving Repr, DecidableEq

namespace OperandStack

/-- The stack of a given capacity that holds nothing. -/
def empty (capacity : Nat) : OperandStack := { values := [], room := capacity }

/-- How many values the stack holds. -/
def depth (s : OperandStack) : Nat := s.values.length

/-- How many values it can hold. -/
def capacity (s : OperandStack) : Nat := s.depth + s.room

/-- Put a value on top, if there is room. -/
def push? (s : OperandStack) (v : Value) : Option OperandStack :=
  match s.room with
  | 0 => none
  | room + 1 => some { values := v :: s.values, room }

/-- Take the top value, if there is one. -/
def pop? (s : OperandStack) : Option (Value × OperandStack) :=
  match s.values with
  | [] => none
  | v :: values => some (v, { values, room := s.room + 1 })

/-- The top value, if there is one. -/
def top? (s : OperandStack) : Option Value := s.values.head?

/-- The stack without its values. -/
def clear (s : OperandStack) : OperandStack := empty s.capacity

/-- The values from the bottom to the top. -/
def bottomUp (s : OperandStack) : List Value := s.values.reverse

/-- The values from the bottom to the top, between brackets. -/
def text (s : OperandStack) : String :=
  "[" ++ ", ".intercalate (s.bottomUp.map fun v => toString v.toInt) ++ "]"

@[simp] theorem capacity_empty (n : Nat) : (empty n).capacity = n := by
  simp [capacity, depth, empty]

@[simp] theorem capacity_clear (s : OperandStack) : s.clear.capacity = s.capacity := by
  simp [clear]

end OperandStack

end StackMachine
