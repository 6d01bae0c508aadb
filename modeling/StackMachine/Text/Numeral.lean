import StackMachine.Text.Hexadecimal

/-!
# Numerals

Signed numbers of 64 bits in text. A numeral is a sign, if any, and digits; digits behind `0x` or
`0X` are hexadecimal ones. Behind that mark a second sign may stand, which then counts as well;
anywhere else there is at most one. Without its first sign a numeral has to fit into 64 bits. Only
two signs can then take it out of them, and that is told apart from a text that is no numeral.
-/

namespace StackMachine.Text.Numeral

/-- The number fits into 64 bits with a sign. -/
def Fits (n : Int) : Prop := -0x8000000000000000 ≤ n ∧ n < 0x8000000000000000

instance : DecidablePred Fits := fun n =>
  inferInstanceAs (Decidable (-0x8000000000000000 ≤ n ∧ n < 0x8000000000000000))

/-- The number that digits of a base continue, when `n` is the number of the digits before. -/
def extend? (base : Nat) (n : Nat) (cs : List Char) : Option Nat :=
  cs.foldlM (fun n c =>
    match Hexadecimal.digit? c with
    | some d => if d < base then some (base * n + d) else none
    | none => none) n

/-- The number of one or more digits of a base, which is ten or sixteen. -/
def natural? (base : Nat) : List Char → Option Nat
  | [] => none
  | cs => extend? base 0 cs

/-- The number of an optional sign and one or more digits, if it fits. -/
def signed? (base : Nat) (cs : List Char) : Option Int :=
  let n? : Option Int :=
    match cs with
    | '-' :: rest => (natural? base rest).map fun n => -(n : Int)
    | '+' :: rest => (natural? base rest).map fun n => (n : Int)
    | _ => (natural? base cs).map fun n => (n : Int)
  n?.filter (Fits ·)

/-- The number of the text behind the sign of a numeral. -/
def magnitude? : List Char → Option Int
  | '+' :: _ | '-' :: _ => none
  | '0' :: 'x' :: hex | '0' :: 'X' :: hex => signed? 16 hex
  | cs => signed? 10 cs

/-- Why a text has no number. -/
inductive Failure where
  /-- It is no numeral. -/
  | malformed
  /-- It is one, but the number does not fit. -/
  | overflow
  deriving Repr, DecidableEq

/-- The opposite of a number, if it fits. -/
def opposite (n : Int) : Except Failure Int := if Fits (-n) then .ok (-n) else .error .overflow

/-- The number of a numeral. -/
def parse : List Char → Except Failure Int
  | '-' :: rest => (magnitude? rest).elim (.error .malformed) opposite
  | '+' :: rest => (magnitude? rest).elim (.error .malformed) .ok
  | cs => (magnitude? cs).elim (.error .malformed) .ok

end StackMachine.Text.Numeral
