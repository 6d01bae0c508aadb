import StackMachine.Text.Blank
import StackMachine.Text.DecimalDigit

/-!
# Lines of assembly

A line holds up to three parts, each of which may be missing: a listing number and a colon, a
label and a colon, and a mnemonic, behind which an operand may follow after a blank. Blanks may
stand around the parts and in front of the colons. A comment runs from `//`, `;` or `#` to the end
of the line.

A word and a colon may begin a line in two ways: as a label, or as a mnemonic whose operand begins
with that colon. It is a label whenever the rest of the line allows it.
-/

namespace StackMachine.Assembly

open Text

/-- A mnemonic and its operand, as written. -/
structure Statement where
  mnemonic : String
  operand : Option String
  deriving Repr, DecidableEq

/-- A line, taken apart. -/
structure Line where
  /-- The digits of the listing number. -/
  listedAt : Option String
  label : Option String
  statement : Option Statement
  deriving Repr, DecidableEq

/-! ### Comments -/

/-- A line without its comment. -/
def stripComment : List Char → List Char
  | [] => []
  | ';' :: _ | '#' :: _ | '/' :: '/' :: _ => []
  | c :: rest => c :: stripComment rest

/-! ### Words -/

/-- A character that a label may begin with. -/
def isLabelStart (c : Char) : Bool :=
  ('A' ≤ c && c ≤ 'Z') || ('a' ≤ c && c ≤ 'z') || c == '_'

/-- A character of a label. -/
def isLabelChar (c : Char) : Bool := isLabelStart c || ('0' ≤ c && c ≤ '9')

/-- A character that a mnemonic may begin with. -/
def isMnemonicStart (c : Char) : Bool := 'a' ≤ c && c ≤ 'z'

/-- A character of a mnemonic. -/
def isMnemonicChar (c : Char) : Bool := isMnemonicStart c || ('0' ≤ c && c ≤ '9') || c == '_'

/-- A word that starts and goes on with characters of two classes. -/
def isWord (start more : Char → Bool) : List Char → Bool
  | [] => false
  | c :: rest => start c && rest.all more

/-! ### The parts of a line -/

/-- What may follow a mnemonic to the end of the line: nothing, or a blank and one operand. -/
def operand? : List Char → Option (Option String)
  | [] => some none
  | c :: rest =>
    if isBlank c then
      let operand := (dropBlanks rest).takeWhile (!isBlank ·)
      let behind := (dropBlanks rest).dropWhile (!isBlank ·)
      if dropBlanks behind ≠ [] then none
      else if operand = [] then some none
      else some (some (String.ofList operand))
    else none

/-- A statement that takes the whole text, up to blanks around it. -/
def statement? (cs : List Char) : Option Statement :=
  let cs := dropBlanks cs
  let word := cs.takeWhile isMnemonicChar
  if isWord isMnemonicStart isMnemonicChar word then
    (operand? (cs.dropWhile isMnemonicChar)).map fun operand =>
      { mnemonic := String.ofList word, operand }
  else none

/-- A statement that takes the whole text, or no statement if there are only blanks. -/
def body? (cs : List Char) : Option (Option Statement) :=
  if dropBlanks cs = [] then some none else (statement? cs).map some

/-- A label and the text behind its colon. -/
def label? (cs : List Char) : Option (String × List Char) :=
  let cs := dropBlanks cs
  let word := cs.takeWhile isLabelChar
  if isWord isLabelStart isLabelChar word then
    match dropBlanks (cs.dropWhile isLabelChar) with
    | ':' :: rest => some (String.ofList word, rest)
    | _ => none
  else none

/-- The text behind the listing number: a label, if there is one that the rest allows, and a
statement. -/
def labelled? (cs : List Char) : Option (Option String × Option Statement) :=
  let read : Option (Option String × Option Statement) :=
    (label? cs).bind fun (label, rest) => (body? rest).map fun body => (some label, body)
  read <|> (body? cs).map fun body => (none, body)

/-- The digits of a listing number and the text behind its colon. -/
def listing? (cs : List Char) : Option (String × List Char) :=
  let cs := dropBlanks cs
  let digits := cs.takeWhile isDecimalDigit
  if digits = [] then none
  else
    match dropBlanks (cs.dropWhile isDecimalDigit) with
    | ':' :: rest => some (String.ofList digits, rest)
    | _ => none

/-- Take a line without its comment apart. -/
def Line.parse? (cs : List Char) : Option Line :=
  let (listedAt, rest) :=
    match listing? cs with
    | some (digits, rest) => (some digits, rest)
    | none => (none, cs)
  (labelled? rest).map fun (label, statement) => { listedAt, label, statement }

end StackMachine.Assembly
