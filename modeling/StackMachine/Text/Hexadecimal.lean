/-!
# Hexadecimal text

Numbers and byte strings in base sixteen. Digits are written in lower case and read in either
case; a byte string is two digits for each byte, the high one first.
-/

namespace StackMachine.Text.Hexadecimal

/-! ### Writing -/

/-- A number in lower-case digits, filled up with zeros to at least `width` of them. -/
def padded (width n : Nat) : List Char := (Nat.toDigits 16 n).leftpad width '0'

/-- A number as it stands in messages: `0x` and at least `width` digits. -/
def marked (width n : Nat) : String := "0x" ++ String.ofList (padded width n)

/-- The two digits of a byte. -/
def ofByte (b : UInt8) : List Char := padded 2 b.toNat

/-- The digits of a byte string. -/
def ofBytes (bytes : List UInt8) : List Char := bytes.flatMap ofByte

/-! ### Reading -/

/-- The value of a digit, in either case. -/
def digit? (c : Char) : Option Nat :=
  if '0' ≤ c ∧ c ≤ '9' then some (c.toNat - '0'.toNat)
  else if 'a' ≤ c ∧ c ≤ 'f' then some (c.toNat - 'a'.toNat + 10)
  else if 'A' ≤ c ∧ c ≤ 'F' then some (c.toNat - 'A'.toNat + 10)
  else none

/-- Why a text spells no byte string. -/
inductive Error where
  /-- Its length is odd, so that its last byte has one digit only. -/
  | oddLength
  /-- The first character that is no digit, and how many stand before it. -/
  | invalidCharacter (c : Char) (index : Nat)
  deriving Repr, DecidableEq

/-- A character between single quotes. The quote itself and the backslash have a backslash in
front, and a control character shows its code point. -/
def quoted (c : Char) : String :=
  if c = '\'' ∨ c = '\\' then "'\\" ++ c.toString ++ "'"
  else if c.toNat < 0x20 ∨ (0x7f ≤ c.toNat ∧ c.toNat < 0xa0) then
    "'\\u\x7b" ++ String.ofList (Nat.toDigits 16 c.toNat) ++ "\x7d'"
  else "'" ++ c.toString ++ "'"

/-- The wording of an error. -/
def Error.message : Error → String
  | .oddLength => "Odd number of digits"
  | .invalidCharacter c index =>
    "Invalid character " ++ quoted c ++ " at position " ++ toString index

/-- Read digit pairs, where `index` characters stand before the text. -/
def pairs : Nat → List Char → Except Error (List UInt8)
  | _, [] => .ok []
  | _, [_] => .error .oddLength
  | index, high :: low :: rest =>
    match digit? high, digit? low with
    | none, _ => .error (.invalidCharacter high index)
    | some _, none => .error (.invalidCharacter low (index + 1))
    | some h, some l => do return UInt8.ofNat (16 * h + l) :: (← pairs (index + 2) rest)

/-- The byte string that a text spells. An odd length is reported before any bad character. -/
def parse (cs : List Char) : Except Error (List UInt8) :=
  if cs.length % 2 = 1 then .error .oddLength else pairs 0 cs

end StackMachine.Text.Hexadecimal
