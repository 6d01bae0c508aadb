import StackMachine.ByteOrder
import StackMachine.Text.Hexadecimal

/-!
# File headers

A file that holds a program begins with sixteen bytes: a magic number, the version of the format,
two bytes without meaning, the length of the code, and an entry point, which is kept but not used.
All numbers stand with the low byte first.
-/

namespace StackMachine

/-- The fields of a header. -/
structure Header where
  magic : UInt32
  version : UInt16
  /-- How many bytes of code follow. -/
  codeLength : UInt32
  /-- An offset in the code. Runs start at the first byte, whatever it says. -/
  entryPoint : UInt32
  deriving Repr, DecidableEq

/-- The fields of a header that can be at fault. -/
inductive HeaderField where
  /-- The magic number. -/
  | magic
  /-- The version of the format. -/
  | version
  /-- The length of the code. -/
  | codeLength
  deriving Repr, DecidableEq

/-- The name of a field. -/
def HeaderField.name : HeaderField → String
  | .magic => "magic"
  | .version => "version"
  | .codeLength => "code_length"

/-- What is wrong with a header. -/
inductive HeaderError where
  /-- The file ends inside the header. -/
  | truncated (available : Nat)
  /-- The file does not begin with the magic number. -/
  | badMagic (expected actual : UInt32)
  /-- The version is newer than the newest that is understood. -/
  | badVersion (version max : UInt16)
  /-- The file holds another number of code bytes than the header says. -/
  | badLength (declared available : Nat)
  deriving Repr, DecidableEq

namespace HeaderError

/-- The field that is at fault; a header that is cut off has none. -/
def field? : HeaderError → Option HeaderField
  | .truncated _ => none
  | .badMagic .. => some .magic
  | .badVersion .. => some .version
  | .badLength .. => some .codeLength

/-- The wording of an error. -/
def message : HeaderError → String
  | .truncated available => "truncated header: " ++ toString available ++ " of 16 bytes"
  | .badMagic expected actual =>
    "invalid magic number: expected " ++ Text.Hexadecimal.marked 8 expected.toNat ++ ", got " ++
      Text.Hexadecimal.marked 8 actual.toNat
  | .badVersion version max =>
    "unsupported version " ++ toString version.toNat ++ " (max supported: " ++
      toString max.toNat ++ ")"
  | .badLength declared available =>
    "declared code length " ++ toString declared ++ " does not match the " ++
      toString available ++ " bytes present"

end HeaderError

namespace Header

/-- The number that every program file begins with. -/
def magicNumber : UInt32 := 0xcafebabe

/-- The newest version of the format that is understood, which is the one that is written. -/
def maxVersion : UInt16 := 1

/-- How many bytes a header takes. -/
def size : Nat := 16

/-- The header that is written in front of a code of the given length. -/
def ofLength (codeLength : UInt32) : Header :=
  { magic := magicNumber, version := maxVersion, codeLength, entryPoint := 0 }

/-! ### Reading -/

/-- The number in the bytes from `start` up to `stop`. -/
def numberAt (bytes : List UInt8) (start stop : Nat) : Nat :=
  LittleEndian.value ((bytes.take stop).drop start)

/-- The header at the beginning of a byte string. Its fields are not looked at. -/
def parse (bytes : List UInt8) : Except HeaderError Header :=
  if bytes.length < size then .error (.truncated bytes.length)
  else
    .ok
      { magic := .ofNat (numberAt bytes 0 4)
        version := .ofNat (numberAt bytes 4 6)
        codeLength := .ofNat (numberAt bytes 8 12)
        entryPoint := .ofNat (numberAt bytes 12 16) }

/-- Whether a program with this header can be read: first its magic number and then its version
must be right. -/
def validate (h : Header) : Except HeaderError Unit :=
  if h.magic ≠ magicNumber then .error (.badMagic magicNumber h.magic)
  else if maxVersion < h.version then .error (.badVersion h.version maxVersion)
  else .ok ()

/-! ### Writing -/

/-- A byte string with other bytes from an offset on. -/
def overwrite (block : List UInt8) (offset : Nat) (bytes : List UInt8) : List UInt8 :=
  block.take offset ++ bytes ++ block.drop (offset + bytes.length)

/-- The bytes of a header: its fields at their offsets, and zeros between them. -/
def toBytes (h : Header) : List UInt8 :=
  let block := List.replicate size 0
  let block := overwrite block 0 (LittleEndian.bytes 4 h.magic.toNat)
  let block := overwrite block 4 (LittleEndian.bytes 2 h.version.toNat)
  let block := overwrite block 8 (LittleEndian.bytes 4 h.codeLength.toNat)
  overwrite block 12 (LittleEndian.bytes 4 h.entryPoint.toNat)

/-- The fields of a header in the order in which they are written, each as its bytes. -/
def pieces (h : Header) : List (List UInt8) :=
  [LittleEndian.bytes 4 h.magic.toNat, LittleEndian.bytes 2 h.version.toNat,
   LittleEndian.bytes 2 0, LittleEndian.bytes 4 h.codeLength.toNat,
   LittleEndian.bytes 4 h.entryPoint.toNat]

end Header

end StackMachine
