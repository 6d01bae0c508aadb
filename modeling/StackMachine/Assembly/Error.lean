import StackMachine.Opcode

/-!
# Errors in assembly

What can be wrong with a line of assembly, and how it is worded.
-/

namespace StackMachine.Assembly

/-- An operation on numbers of 64 bits. -/
inductive Operation where
  | negation
  | subtraction
  deriving Repr, DecidableEq

/-- The wording for a result that does not fit. -/
def Operation.overflowMessage : Operation → String
  | .negation => "attempt to negate with overflow"
  | .subtraction => "attempt to subtract with overflow"

/-- What is wrong with a line. -/
inductive Problem where
  /-- The line has none of the forms of a line, or its listing number is none that counts. -/
  | unreadable (text : String)
  /-- No opcode has the mnemonic. -/
  | unknownMnemonic (name : String)
  /-- The instruction needs an operand and has none. -/
  | missingOperand (op : Opcode)
  /-- The instruction has an operand and needs none. -/
  | unexpectedOperand (op : Opcode)
  /-- The operand is no numeral. -/
  | invalidOperand (op : Opcode) (operand : String)
  /-- The number of the operand cannot be computed in 64 bits. This is no error of the line that is
  told about: the program breaks off. -/
  | overflow (operation : Operation)
  /-- The operand is a number that the instruction has no room for. -/
  | operandOutOfRange (op : Opcode) (value : Int)
  /-- The label is defined on an earlier line. -/
  | duplicateLabel (label : String)
  /-- No line defines the label. -/
  | undefinedLabel (label : String)
  /-- The label is further away than an instruction can branch. -/
  | branchOutOfRange (label : String) (offset : Int)
  deriving Repr, DecidableEq

/-- The wording of a problem. -/
def Problem.message : Problem → String
  | .unreadable text => "cannot parse `" ++ text ++ "`"
  | .unknownMnemonic name => "unknown mnemonic `" ++ name ++ "`"
  | .missingOperand op => op.mnemonic ++ " needs an operand"
  | .unexpectedOperand op => op.mnemonic ++ " takes no operand"
  | .invalidOperand op operand => "invalid operand `" ++ operand ++ "` for " ++ op.mnemonic
  | .overflow operation => operation.overflowMessage
  | .operandOutOfRange op value =>
    "operand " ++ toString value ++ " out of range for " ++ op.mnemonic
  | .duplicateLabel label => "label `" ++ label ++ "` defined twice"
  | .undefinedLabel label => "undefined label `" ++ label ++ "`"
  | .branchOutOfRange label offset =>
    "label `" ++ label ++ "` is " ++ toString offset ++ " bytes away, beyond a 16-bit offset"

/-- A problem and the line that it is in. -/
structure Error where
  /-- The number of the line, counted from one. -/
  line : Nat
  problem : Problem
  deriving Repr, DecidableEq

/-- The wording of an error. -/
def Error.message (e : Error) : String :=
  "line " ++ toString e.line ++ ": " ++ e.problem.message

end StackMachine.Assembly
