import StackMachine.Main
import StackMachine.Proofs.Assembly.Decoding
import StackMachine.Proofs.Assembly.Execution
import StackMachine.Proofs.Assembly.Spelling
import StackMachine.Proofs.ByteOrder
import StackMachine.Proofs.Hexadecimal
import StackMachine.Proofs.Listing
import StackMachine.Proofs.Machine.Faults
import StackMachine.Proofs.Machine.Limits
import StackMachine.Proofs.Machine.LinearWalk
import StackMachine.Proofs.Machine.Log
import StackMachine.Proofs.Machine.Reuse
import StackMachine.Proofs.Machine.Trace
import StackMachine.Proofs.ProgramFile.Reading
import StackMachine.Proofs.ProgramFile.Source
import StackMachine.Proofs.ProgramFile.Writing
import StackMachine.Proofs.ProgramFile.Failing
import StackMachine.Proofs.ProgramFile.RoundTrip
import StackMachine.Proofs.Machine.Relocation
import StackMachine.Proofs.Machine.Fetching
import StackMachine.Proofs.Machine.ProgramCounter
import StackMachine.Proofs.Machine.Leftovers
import StackMachine.Proofs.Assembly.Replacement
import StackMachine.Proofs.Assembly.Labels
import StackMachine.Proofs.ProgramFile.Directory
import StackMachine.Proofs.Command.Agreement
import StackMachine.Proofs.Assembly.Composition
import StackMachine.Proofs.Assembly.Ambiguity
import StackMachine.Proofs.Assembly.Operands
import StackMachine.Proofs.Assembly.Problems
import StackMachine.Proofs.Machine.Forward
import StackMachine.Proofs.Machine.Locals
import StackMachine.Proofs.Value
import StackMachine.Proofs.Machine.Postfix
import StackMachine.Proofs.Assembly.Blanks
import StackMachine.Proofs.Assembly.Comments
import StackMachine.Proofs.Cursor
import StackMachine.Proofs.Instruction.Table
import StackMachine.Proofs.Machine.Arithmetic
import StackMachine.Proofs.ProgramFile.Header
