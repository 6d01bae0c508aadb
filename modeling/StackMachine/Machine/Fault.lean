import StackMachine.Instruction.Decoding

/-!
# Faults and completions

How a run ends. It completes with a value, by one of four ways to stop, or it faults at an
instruction for a reason of one of three classes.
-/

namespace StackMachine

/-! ### Faults -/

/-- Why an instruction cannot be executed. -/
inductive FaultKind where
  /-- A push onto a stack that holds `capacity` values already. -/
  | stackOverflow (capacity : Nat)
  /-- A pop from an empty stack. -/
  | stackUnderflow
  /-- A quotient or a remainder by zero. -/
  | divisionByZero
  /-- The byte at the program counter is no opcode. -/
  | unknownOpcode (byte : UInt8)
  /-- The operand of an opcode runs past the end of the code. -/
  | truncatedOperand (op : Opcode) (needed available : Nat)
  /-- There are `capacity` local variables, and none of them has the index. -/
  | localOutOfBounds (index : UInt8) (capacity : Nat)
  /-- The program counter is neither inside the code nor at its end. -/
  | pcOutOfBounds (length : Nat)
  deriving Repr, DecidableEq

/-- The class of a fault. -/
inductive FaultClass where
  /-- The stack was too full or too empty. -/
  | stack
  /-- An operation has no result. -/
  | arithmetic
  /-- The code itself is at fault. -/
  | malformedProgram
  deriving Repr, DecidableEq

namespace FaultKind

/-- The fault for a failure to decode in a code of the given length. -/
def ofDecodeError (length : Nat) : DecodeError → FaultKind
  | .endOfCode _ => .pcOutOfBounds length
  | .unknownOpcode byte => .unknownOpcode byte
  | .truncatedOperand op shortfall => .truncatedOperand op shortfall.needed shortfall.available

/-- The class that a kind of fault belongs to. -/
def faultClass : FaultKind → FaultClass
  | .stackOverflow _ | .stackUnderflow => .stack
  | .divisionByZero => .arithmetic
  | .unknownOpcode _ | .truncatedOperand .. | .localOutOfBounds .. | .pcOutOfBounds _ =>
    .malformedProgram

/-- The wording of a kind of fault. -/
def message : FaultKind → String
  | .stackOverflow capacity => "stack overflow (capacity " ++ toString capacity ++ ")"
  | .stackUnderflow => "stack underflow"
  | .divisionByZero => "division by zero"
  | .unknownOpcode byte => "unknown opcode " ++ Text.Hexadecimal.marked 2 byte.toNat
  | .truncatedOperand op needed available =>
    "truncated operand for " ++ op.mnemonic ++ ": needed " ++ toString needed ++ " bytes, " ++
      toString available ++ " available"
  | .localOutOfBounds index capacity =>
    "local variable " ++ toString index.toNat ++ " out of bounds (capacity " ++
      toString capacity ++ ")"
  | .pcOutOfBounds length => "program counter outside code of length " ++ toString length

end FaultKind

/-- A fault and where it happened. -/
structure Fault where
  kind : FaultKind
  /-- The program counter of the instruction; outside the code, the place that was branched to. -/
  pc : Int
  deriving Repr, DecidableEq

/-- The wording of a fault. -/
def Fault.message (f : Fault) : String := f.kind.message ++ " at pc=" ++ toString f.pc

/-! ### Completions -/

/-- How a run that does not fault ends. -/
inductive Termination where
  /-- It returned the value on top of the stack. -/
  | returned
  /-- It returned without a value. -/
  | returnedVoid
  /-- It was told to stop. -/
  | halted
  /-- It ran off the end of the code. -/
  | fellOff
  deriving Repr, DecidableEq

/-- The wording of a termination. -/
def Termination.text : Termination → String
  | .returned => "returned"
  | .returnedVoid => "returned void"
  | .halted => "halted"
  | .fellOff => "reached end of code"

/-- The end of a run that does not fault; without a returned value the value is zero. -/
structure Completion where
  value : Value
  termination : Termination
  deriving Repr, DecidableEq

/-- The end of a run. -/
inductive Outcome where
  /-- It completed. -/
  | completed (completion : Completion)
  /-- It faulted. -/
  | faulted (fault : Fault)
  deriving Repr, DecidableEq

/-- An outcome as one number: the value, or `-1` for a fault. -/
def Outcome.resultCode : Outcome → Value
  | .completed completion => completion.value
  | .faulted _ => -1

end StackMachine
