import StackMachine.Machine.Fault
import StackMachine.Machine.OperandStack

/-!
# The machine and its operations

The state of the machine is an operand stack, a program counter and a row of local variables. An
operation changes the state and succeeds with a result, or fails with a fault; what it popped
before it failed is gone. The code is no part of the state: no operation looks at it.
-/

namespace StackMachine

/-- The sizes that a run may use. -/
structure Limits where
  /-- How many values the operand stack can hold. -/
  stackCapacity : Nat := 1024
  /-- How many local variables there are; no more of them are kept than an index can name. -/
  localsCapacity : Nat := 256
  deriving Repr, DecidableEq

/-- The number of local variables that an index of one byte can name. -/
def addressableLocals : Nat := 256

/-- The state of the machine. -/
structure Machine where
  stack : OperandStack
  /-- The offset of the next instruction, which a branch may move out of the code. -/
  pc : Int
  locals : Array Value
  deriving Repr, DecidableEq

/-- An operation of the machine that gives an `α`. A failed operation has a state as well. -/
abbrev Operation (α : Type) := EStateM FaultKind Machine α

/-- What follows an instruction: the next one, or the end of the run. -/
inductive Flow where
  | next
  | stop (completion : Completion)
  deriving Repr, DecidableEq

namespace Machine

/-- The machine at the start of a run: at the first byte, with all local variables zero. No more
of them are kept than can be named. -/
def start (stack : OperandStack) (localsCapacity : Nat) : Machine :=
  { stack, pc := 0, locals := Array.replicate (min localsCapacity addressableLocals) 0 }

/-! ### The stack -/

/-- Push a value. -/
def push (v : Value) : Operation Unit := fun m =>
  match m.stack.push? v with
  | some stack => .ok () { m with stack }
  | none => .error (.stackOverflow m.stack.capacity) m

/-- Pop a value. -/
def pop : Operation Value := fun m =>
  match m.stack.pop? with
  | some (v, stack) => .ok v { m with stack }
  | none => .error .stackUnderflow m

/-- Pop the right and then the left operand; the pair has the left one first. -/
def popPair : Operation (Value × Value) := do
  let right ← pop
  let left ← pop
  return (left, right)

/-- Remove all values. -/
def clearStack : Operation Unit := modify fun m => { m with stack := m.stack.clear }

/-! ### Local variables -/

/-- The value of a local variable. -/
def getLocal (index : UInt8) : Operation Value := fun m =>
  match m.locals[index.toNat]? with
  | some v => .ok v m
  | none => .error (.localOutOfBounds index m.locals.size) m

/-- Give a local variable a value. -/
def setLocal (index : UInt8) (v : Value) : Operation Unit := fun m =>
  if index.toNat < m.locals.size then
    .ok () { m with locals := m.locals.setIfInBounds index.toNat v }
  else
    .error (.localOutOfBounds index m.locals.size) m

/-- Push the value of a local variable. -/
def load (index : UInt8) : Operation Unit := do push (← getLocal index)

/-- Pop a value into a local variable. -/
def store (index : UInt8) : Operation Unit := do setLocal index (← pop)

/-! ### Arithmetic -/

/-- Replace the two values on top by the result of an arithmetic operation on them. -/
def binary (op : BinaryOp) : Operation Unit := do
  let (left, right) ← popPair
  match op.eval? left right with
  | some v => push v
  | none => throw .divisionByZero

/-- Negate the value on top. -/
def negate : Operation Unit := do push (-(← pop))

/-! ### Control -/

/-- Move the program counter to a position, which is taken for a signed number of 64 bits. -/
def jump (position : Nat) : Operation Unit :=
  modify fun m => { m with pc := (Int64.ofNat position).toInt }

/-- How many bytes a branch takes. -/
def branchSize : Nat := 3

/-- Branch by an offset that counts from the opcode of the branch, when the program counter stands
behind the branch. -/
def branch (offset : Int) : Operation Unit :=
  modify fun m => { m with pc := m.pc + offset - branchSize }

/-- Pop two values and branch if a comparison holds of them. -/
def branchIf (cond : Comparison) (offset : Int) : Operation Unit := do
  let (left, right) ← popPair
  if cond.holds left right then branch offset

/-! ### Instructions -/

/-- Carry out an instruction, when the program counter stands behind it. -/
def execute : Instruction → Operation Flow
  | .nop => return .next
  | .iconst v | .bipush v => do push v.toInt32; return .next
  | .sipush v => do push v.toInt32; return .next
  | .iload index | .iloadShort index => do load index; return .next
  | .istore index | .istoreShort index => do store index; return .next
  | .binary op => do binary op; return .next
  | .ineg => do negate; return .next
  | .ifIcmp cond offset => do branchIf cond offset.toInt; return .next
  | .goto offset => do branch offset.toInt; return .next
  | .ireturn => do return .stop { value := ← pop, termination := .returned }
  | .returnVoid => return .stop { value := 0, termination := .returnedVoid }
  | .halt => return .stop { value := 0, termination := .halted }

end Machine

end StackMachine
