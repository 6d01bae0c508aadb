import StackMachine.Assembly.Error
import StackMachine.Assembly.Line
import StackMachine.Text.Lines
import StackMachine.Text.Numeral

/-!
# Layout

Before any operand is read, a source is laid out: every instruction gets the offset at which its
bytes will stand, and every label the offset of what follows it. An instruction takes as many
bytes as its opcode says, so no operand is needed for that, and a label may be used in front of
its definition.
-/

namespace StackMachine.Assembly

open Text

/-- An instruction that has been laid out. -/
structure Placed where
  /-- The number of its line. -/
  line : Nat
  /-- Where its bytes will stand. -/
  offset : Nat
  opcode : Opcode
  /-- Its operand, as written. -/
  operand : Option String
  /-- The listing number of its line. -/
  listedAt : Option Int
  deriving Repr, DecidableEq

/-- The lines of a source so far. -/
structure Layout where
  /-- Each label and the offset that it stands for, the last one first. -/
  labels : List (String × Nat)
  /-- The instructions in order. -/
  placed : Array Placed
  /-- How many bytes the instructions take. -/
  size : Nat
  deriving Repr, DecidableEq

namespace Layout

/-- The layout of no line. -/
def empty : Layout := { labels := [], placed := #[], size := 0 }

/-- The offset of a label. -/
def offset? (layout : Layout) (label : String) : Option Nat := layout.labels.lookup label

/-- Define a label at the end of the layout, unless it is defined already. -/
def define (layout : Layout) (label : String) : Except Problem Layout :=
  match layout.offset? label with
  | some _ => .error (.duplicateLabel label)
  | none => .ok { layout with labels := (label, layout.size) :: layout.labels }

/-- Read a listing number; `text` is the line that it stands in. -/
def listingNumber (text : List Char) : Option String → Except Problem (Option Int)
  | none => .ok none
  | some digits =>
    match Numeral.signed? 10 digits.toList with
    | some n => .ok (some n)
    | none => .error (.unreadable (String.ofList (trim text)))

/-- Put the instruction of a line at the end of the layout. -/
def place (layout : Layout) (number : Nat) (text : List Char) (listedAt : Option String)
    (statement : Statement) : Except Problem Layout := do
  let some op := Opcode.ofMnemonic? statement.mnemonic
    | throw (.unknownMnemonic statement.mnemonic)
  let listedAt ← listingNumber text listedAt
  return { layout with
    placed := layout.placed.push
      { line := number, offset := layout.size, opcode := op, operand := statement.operand,
        listedAt }
    size := layout.size + op.size }

/-- Lay out one more line, given without its comment. -/
def addLine (layout : Layout) (number : Nat) (text : List Char) : Except Problem Layout := do
  let some line := Line.parse? text
    | throw (.unreadable (String.ofList (trim text)))
  let layout ← match line.label with
    | some label => layout.define label
    | none => pure layout
  match line.statement with
  | some statement => layout.place number text line.listedAt statement
  | none => return layout

/-- Lay out lines, the first of which has the given number. -/
def addLines : Layout → Nat → List (List Char) → Except Error Layout
  | layout, _, [] => .ok layout
  | layout, number, line :: rest =>
    match layout.addLine number (stripComment line) with
    | .error problem => .error { line := number, problem }
    | .ok layout => layout.addLines (number + 1) rest

/-- Lay out a source. -/
def ofSource (source : List Char) : Except Error Layout := empty.addLines 1 (lines source)

end Layout

end StackMachine.Assembly
