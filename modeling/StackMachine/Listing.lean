import StackMachine.Text.Hexadecimal
import StackMachine.Walk

/-!
# Listings

A listing shows a code line by line, one line for each item of its linear walk: the offset, the
bytes in hexadecimal, and the instruction. A branch shows its target as well. A byte that is no
opcode is marked as such, and an instruction that runs past the end is shown with all the bytes
that are left.
-/

namespace StackMachine

open Text

/-- One line of a listing. -/
structure ListingLine where
  /-- Where the bytes stand in the code. -/
  offset : Nat
  /-- The bytes that the line shows. -/
  bytes : List UInt8
  /-- What they mean. -/
  text : String

namespace ListingLine

/-- The target of a branch: four digits at least, and a minus sign in front of the code. -/
def target (t : Int) : String :=
  (if t < 0 then "-" else "") ++ String.ofList (Hexadecimal.padded 4 t.natAbs)

/-- The line of an item; a walk has no item at the end of the code, which would have none. -/
def ofItem? (code : Code) (item : Item) : Option ListingLine :=
  match item.result with
  | .ok l =>
    some
      { offset := item.offset
        bytes := (code.extract l.start l.stop).toList
        text :=
          match l.target? with
          | some t => l.instruction.text ++ " -> " ++ target t
          | none => l.instruction.text }
  | .error (.unknownOpcode b) =>
    some
      { offset := item.offset
        bytes := [b]
        text := "unknown_opcode " ++ Hexadecimal.marked 2 b.toNat }
  | .error (.truncatedOperand op _) =>
    some
      { offset := item.offset
        bytes := (code.extract item.offset code.size).toList
        text := op.mnemonic ++ " <truncated>" }
  | .error (.endOfCode _) => none

/-- The column of the offset: four digits at least. -/
def offsetColumn (line : ListingLine) : List Char := Hexadecimal.padded 4 line.offset

/-- The column of the bytes. -/
def bytesColumn (line : ListingLine) : List Char := Hexadecimal.ofBytes line.bytes

/-- A line as text, with its newline. The column of the bytes is filled up to eight places. -/
def render (line : ListingLine) : String :=
  String.ofList line.offsetColumn ++ ": " ++ String.ofList (line.bytesColumn.rightpad 8 ' ') ++
    " " ++ line.text ++ "\n"

end ListingLine

/-- The lines of the listing of a code. -/
def listingLines (code : Code) : List ListingLine :=
  (walk code).filterMap (ListingLine.ofItem? code)

/-- The listing of a code. -/
def listing (code : Code) : String := String.join ((listingLines code).map ListingLine.render)

end StackMachine
