import StackMachine.Assembly.Layout
import StackMachine.Instruction.Encoding

/-!
# Assembling

Once a source is laid out, the operand of each instruction is read, and the instructions are
written one behind the other. An operand is a numeral; that of a branch may also be a label. A
branch holds the distance from its own offset, so a label stands for the difference of the two
offsets. The number of a branch is that distance, but on a line with a listing number it is the
target in the same listing, and the distance is what remains when the listing number is taken off.
Numbers are those of 64 bits, and one that leaves them ends the assembly.
-/

namespace StackMachine.Assembly

open Text

/-- The operand begins like a label. -/
def startsLabel (operand : String) : Bool := operand.toList.head?.any isLabelStart

namespace Placed

/-- The operand as written, where one is needed. -/
def operandText (p : Placed) : Except Problem String :=
  match p.operand with
  | some operand => .ok operand
  | none => .error (.missingOperand p.opcode)

/-- The operand as a number. -/
def number (p : Placed) (operand : String) : Except Problem Int :=
  match Numeral.parse operand.toList with
  | .ok n => .ok n
  | .error .malformed => .error (.invalidOperand p.opcode operand)
  | .error .overflow => .error (.overflow .negation)

/-- What remains of a number when the listing number, if there is one, is taken off. -/
def lessListing (p : Placed) (n : Int) : Except Problem Int :=
  if Numeral.Fits (n - p.listedAt.getD 0) then .ok (n - p.listedAt.getD 0)
  else .error (.overflow .subtraction)

/-- A number as an operand of one signed byte. -/
def int8 (p : Placed) (n : Int) : Except Problem Int8 :=
  if -128 ≤ n ∧ n < 128 then .ok (Int8.ofInt n) else .error (.operandOutOfRange p.opcode n)

/-- A number as an operand of two signed bytes. -/
def int16 (p : Placed) (n : Int) : Except Problem Int16 :=
  if -32768 ≤ n ∧ n < 32768 then .ok (Int16.ofInt n) else .error (.operandOutOfRange p.opcode n)

/-- A number as the index of a local variable. -/
def index (p : Placed) (n : Int) : Except Problem UInt8 :=
  if 0 ≤ n ∧ n < 256 then .ok (UInt8.ofNat n.toNat) else .error (.operandOutOfRange p.opcode n)

/-- The distance from a branch to a label. -/
def distance (p : Placed) (layout : Layout) (label : String) : Except Problem Int16 :=
  match layout.offset? label with
  | none => .error (.undefinedLabel label)
  | some target =>
    let offset : Int := target - p.offset
    if -32768 ≤ offset ∧ offset < 32768 then .ok (Int16.ofInt offset)
    else .error (.branchOutOfRange label offset)

/-- What is to stand behind the opcode. -/
def operandValue (p : Placed) (layout : Layout) : (i : Immediate) → Except Problem i.Operand
  | .none =>
    match p.operand with
    | none => .ok ()
    | some _ => .error (.unexpectedOperand p.opcode)
  | .i8 => do p.int8 (← p.number (← p.operandText))
  | .i16 => do p.int16 (← p.number (← p.operandText))
  | .localIndex => do p.index (← p.number (← p.operandText))
  | .branchOffset => do
    let operand ← p.operandText
    if startsLabel operand then p.distance layout operand
    else do p.int16 (← p.lessListing (← p.number operand))

/-- The instruction of a line. -/
def instruction (p : Placed) (layout : Layout) : Except Error Instruction :=
  match p.operandValue layout p.opcode.immediate with
  | .ok v => .ok (.ofOpcode p.opcode v)
  | .error problem => .error { line := p.line, problem }

end Placed

/-- The instructions of a source. -/
def instructions (source : String) : Except Error (List Instruction) := do
  let layout ← Layout.ofSource source.toList
  layout.placed.toList.mapM (·.instruction layout)

/-- The code of a source. -/
def assemble (source : String) : Except Error Code :=
  (instructions source).map fun is => (is.flatMap Instruction.bytes).toArray

end StackMachine.Assembly
