import StackMachine.Machine.Fault
import StackMachine.Text.Json

/-!
# Reports

How the end of a run is told: in one line, or as a document that names every part of it.
-/

namespace StackMachine

open Text

/-! ### Names -/

/-- The name of a class of faults in a document. -/
def FaultClass.name : FaultClass → String
  | .stack => "stack"
  | .arithmetic => "arithmetic"
  | .malformedProgram => "malformed_program"

/-- The name of a termination in a document. -/
def Termination.name : Termination → String
  | .returned => "returned"
  | .returnedVoid => "returned_void"
  | .halted => "halted"
  | .fellOff => "fell_off"

/-- The name of a kind of fault in a document. -/
def FaultKind.name : FaultKind → String
  | .stackOverflow _ => "stack_overflow"
  | .stackUnderflow => "stack_underflow"
  | .divisionByZero => "division_by_zero"
  | .unknownOpcode _ => "unknown_opcode"
  | .truncatedOperand .. => "truncated_operand"
  | .localOutOfBounds .. => "local_out_of_bounds"
  | .pcOutOfBounds _ => "pc_out_of_bounds"

/-- What there is to say about a fault of some kind. -/
def FaultKind.details : FaultKind → List (String × Json)
  | .stackOverflow capacity => [("capacity", .number capacity)]
  | .stackUnderflow | .divisionByZero => []
  | .unknownOpcode byte => [("opcode", .number byte.toNat)]
  | .truncatedOperand op needed available =>
    [("mnemonic", .text op.mnemonic), ("needed", .number needed),
      ("available", .number available)]
  | .localOutOfBounds index capacity =>
    [("index", .number index.toNat), ("capacity", .number capacity)]
  | .pcOutOfBounds length => [("len", .number length)]

/-! ### Outcomes -/

namespace Outcome

/-- The end of a run in one line. -/
def line : Outcome → String
  | .completed c => "returned: " ++ toString c.value.toInt ++ " (" ++ c.termination.text ++ ")"
  | .faulted f => "fault: " ++ f.message

/-- The end of a run as a document. -/
def document (o : Outcome) : Json :=
  match o with
  | .completed c =>
    .object
      [("status", .text "completed"), ("value", .number c.value.toInt),
        ("termination", .text c.termination.name), ("result_code", .number o.resultCode.toInt)]
  | .faulted f =>
    .object
      [("status", .text "faulted"),
        ("fault", .object (("kind", .text f.kind.name) :: f.kind.details)),
        ("class", .text f.kind.faultClass.name), ("pc", .number f.pc),
        ("message", .text f.message), ("result_code", .number o.resultCode.toInt)]

/-- The run completed. -/
def isCompleted : Outcome → Bool
  | .completed _ => true
  | .faulted _ => false

end Outcome

end StackMachine
