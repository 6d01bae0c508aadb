import StackMachine.Cursor
import StackMachine.ProgramFile.Device
import StackMachine.ProgramFile.Header

/-!
# Program files

A program file is a header and behind it the code, exactly as many bytes as the header says.
`readProgram` reads one from a source and accepts nothing else; `writeProgram` writes one to a
sink.
-/

namespace StackMachine

/-- A program from a file. -/
structure Program where
  header : Header
  code : Code
  deriving Repr, DecidableEq

/-! ### Reading -/

/-- Why a program could not be read. -/
inductive LoadError where
  /-- The file cannot be opened. -/
  | cannotOpen (path : String) (cause : DeviceError)
  /-- The source failed. -/
  | cannotRead (cause : DeviceError)
  /-- The header is at fault. -/
  | invalidHeader (cause : HeaderError)
  /-- The code ends before it is as long as the header says. -/
  | truncatedCode (expected actual : Nat)
  deriving Repr, DecidableEq

namespace LoadError

/-- The failure came from the device and not from what the file holds. -/
def isDeviceFailure : LoadError → Bool
  | .cannotOpen .. | .cannotRead _ => true
  | .invalidHeader _ | .truncatedCode .. => false

/-- The wording of an error. -/
def message : LoadError → String
  | .cannotOpen path cause => "cannot open " ++ path ++ ": " ++ cause.message
  | .cannotRead cause => "cannot read bytecode: " ++ cause.message
  | .invalidHeader cause => "invalid header: " ++ cause.message
  | .truncatedCode expected actual =>
    "truncated code: expected " ++ toString expected ++ " bytes, got " ++ toString actual

end LoadError

/-- How many bytes of code are asked for at a time. -/
def chunkSize : Nat := 0x10000

/-- Read behind a code that is there already, chunk by chunk, until it has the length. A chunk that
comes out short is the last one. -/
def readCode (length : Nat) (code : Code) (source : Source) :
    Except DeviceError (Code × Source) :=
  if code.size < length then
    let wanted := min (length - code.size) chunkSize
    match source.take wanted with
    | .error e => .error e
    | .ok (chunk, source) =>
      if chunk.length < wanted then .ok (code ++ chunk.toArray, source)
      else readCode length (code ++ chunk.toArray) source
  else .ok (code, source)
termination_by length - code.size
decreasing_by
  have hchunk : 0 < chunkSize := by decide
  simp only [Array.size_append, List.size_toArray]
  omega

/-- Read a program. The code is looked for only behind a header that is valid, and the end of the
source only behind a code that is complete. -/
def readProgram (source : Source) : Except LoadError Program := do
  let (raw, source) ← (source.take Header.size).mapError .cannotRead
  let header ← (Header.parse raw).mapError .invalidHeader
  header.validate.mapError .invalidHeader
  let expected := header.codeLength.toNat
  let (code, source) ← (readCode expected #[] source).mapError .cannotRead
  if code.size < expected then
    throw (.truncatedCode expected code.size)
  let trailing ← source.readAll.mapError .cannotRead
  if trailing ≠ [] then
    throw (.invalidHeader (.badLength expected (expected + trailing.length)))
  return { header, code }

/-! ### Writing -/

/-- Why a program could not be written. -/
inductive SaveError where
  /-- The file cannot be created. -/
  | cannotCreate (path : String) (cause : DeviceError)
  /-- The sink failed. -/
  | cannotWrite (cause : DeviceError)
  /-- The code has more bytes than a header can say. -/
  | tooLong (length : Nat)
  deriving Repr, DecidableEq

/-- The wording of an error. -/
def SaveError.message : SaveError → String
  | .cannotCreate path cause => "cannot create " ++ path ++ ": " ++ cause.message
  | .cannotWrite cause => "cannot write bytecode: " ++ cause.message
  | .tooLong length =>
    "code of " ++ toString length ++ " bytes does not fit a 32-bit length field"

/-- Write a header, field by field. -/
def Header.write (h : Header) : Writing Unit := h.pieces.forM StackMachine.write

/-- Write a program with the given code, and say what the sink is left with. -/
def writeProgram (code : Code) (sink : Sink) : Except SaveError Unit × Sink :=
  if 0x100000000 ≤ code.size then (.error (.tooLong code.size), sink)
  else
    let writing : Writing Unit := do
      (Header.ofLength (.ofNat code.size)).write
      write code.toList
    match writing.run sink with
    | .ok _ sink => (.ok (), sink)
    | .error cause sink => (.error (.cannotWrite cause), sink)

end StackMachine
