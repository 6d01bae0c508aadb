import StackMachine.Assembly.Assemble
import StackMachine.Command.Arguments
import StackMachine.Listing
import StackMachine.Machine.Executor
import StackMachine.ProgramFile.Directory
import StackMachine.Report

/-!
# Commands

What the program does for each request: which files it reads and writes, what it prints, and the
status with which it exits. The status is 0 when all went well, and for a run only when the run
completed; it is 1 for a fault or an error, 2 when the arguments ask for nothing that there is, and
101 when the program breaks off.
-/

namespace StackMachine.Command

open Text

/-- What a request comes to. -/
structure Response where
  status : Nat
  /-- What is printed. -/
  output : String
  /-- What is printed on the side: errors, and what is told about a run that is debugged, from the
  loading of its program on. -/
  diagnostics : String
  deriving Repr, DecidableEq

/-- The response that tells of an error. -/
def Response.error (message : String) : Response :=
  { status := 1, output := "", diagnostics := "error: " ++ message ++ "\n" }

/-- The response of a program that breaks off. -/
def Response.breakOff (message : String) : Response :=
  { status := 101, output := "", diagnostics := message ++ "\n" }

/-- The response to a source that has no code. An overflow is none of the errors that are told
about: it breaks the program off. -/
def Response.ofAssemblyError (e : Assembly.Error) : Response :=
  match e.problem with
  | .overflow operation => .breakOff operation.overflowMessage
  | _ => .error e.message

/-- The response to arguments that ask for nothing. -/
def Response.usage : Response :=
  { status := 2
    output := ""
    diagnostics :=
      "usage: stackvm run FILE [OPTIONS]\n" ++
        "       stackvm exec HEX [OPTIONS]\n" ++
        "       stackvm disasm FILE\n" ++
        "       stackvm asm SOURCE -o OUTPUT\n" }

/-- The name of the program and its version. -/
def versionLine : String := "stackvm 0.0.1\n"

/-- An event in one line. -/
def eventLine (e : Event) : String :=
  let fields := e.fields.map fun (name, value) => " " ++ name ++ "=" ++ value
  "DEBUG " ++ e.message ++ String.join fields ++ "\n"

/-- Events as the options ask for them. -/
def eventText (options : RunOptions) (events : List Event) : String :=
  if options.debug then String.join (events.map eventLine) else ""

/-- The outcome of a run as the options ask for it. -/
def outcomeText (options : RunOptions) (outcome : Outcome) : String :=
  (if options.json then outcome.document.pretty 0 else outcome.line) ++ "\n"

/-- Run a code for at most the given number of turns. -/
def runCode (turns : Nat) (options : RunOptions) (code : Code) : Response :=
  let shown := if options.disasm then listing code else ""
  match ((Executor.ofLimits options.limits).setDebug options.debug).execute? turns code with
  | none => { Response.error "the run does not end" with output := shown }
  | some execution =>
    { status := if execution.outcome.isCompleted then 0 else 1
      output := shown ++ outcomeText options execution.outcome
      diagnostics := eventText options execution.events }

/-- Run a program that was loaded. -/
def runProgram (turns : Nat) (options : RunOptions) (program : Program) : Response :=
  let response := runCode turns options program.code
  { response with
    diagnostics :=
      eventText options (Program.loadEvents (.ok program)) ++ response.diagnostics }

/-- The bytes that a text in hexadecimal spells, apart from its blanks. The digits are looked for
in the bytes of the text, each taken for the character of that number. -/
def bytesOfHex (text : String) : Except Hexadecimal.Error (List UInt8) :=
  Hexadecimal.parse <|
    ((removeBlanks text.toList).flatMap String.utf8EncodeChar).map fun b => Char.ofNat b.toNat

/-- The text in a source of bytes. -/
def readText (source : Source) : Except DeviceError String := do
  let bytes ← source.readAll
  match String.fromUTF8? ⟨bytes.toArray⟩ with
  | some text => return text
  | none => throw .notText

section

variable {m : Type → Type} [Monad m]

/-- Assemble the source in one file into a program in another. -/
def assembleFile (fs : FileSystem m) (source output : String) : m Response := do
  match (← fs.openFile source).bind readText with
  | .error e => return .error e.message
  | .ok text =>
    match Assembly.assemble text with
    | .error e => return .ofAssemblyError e
    | .ok code =>
      match ← fs.save output code with
      | .error e => return .error e.message
      | .ok _ =>
        return { status := 0
                 output := "wrote " ++ toString code.size ++ " bytes of code to " ++ output ++ "\n"
                 diagnostics := "" }

/-- Do what is asked for. A run is given up after the given number of turns. -/
def Request.perform (turns : Nat) (fs : FileSystem m) : Request → m Response
  | .version => return { status := 0, output := versionLine, diagnostics := "" }
  | .run file options => do
    match ← fs.load file with
    | .ok program => return runProgram turns options program
    | .error e => return .error e.message
  | .exec hex options =>
    match bytesOfHex hex with
    | .ok bytes => return runCode turns options bytes.toArray
    | .error e => return .error e.message
  | .disasm file => do
    match ← fs.load file with
    | .ok program => return { status := 0, output := listing program.code, diagnostics := "" }
    | .error e => return .error e.message
  | .asm source output => assembleFile fs source output

/-- Respond to the arguments of the program. -/
def respond (turns : Nat) (fs : FileSystem m) (arguments : List String) : m Response :=
  match Request.parse? arguments with
  | some request => request.perform turns fs
  | none => return .usage

end

end StackMachine.Command
