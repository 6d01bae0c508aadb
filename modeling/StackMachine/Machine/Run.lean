import StackMachine.Machine.Basic

/-!
# Running

A run repeats one turn: fetch the instruction at the program counter, move the program counter
behind it, and carry it out. `Machine.turn` is one turn and says how it went; `Machine.run`
repeats it, for a bounded number of turns, and keeps a log of the completed instructions if it is
asked to.
-/

namespace StackMachine

/-- How a turn went. -/
inductive Turn where
  /-- The program counter stands at the end of the code. -/
  | fellOff
  /-- The instruction was carried out. -/
  | completed (instruction : Instruction) (flow : Flow) (after : Machine)
  /-- There was no instruction to carry out, or it failed. -/
  | faulted (kind : FaultKind) (after : Machine)
  deriving Repr, DecidableEq

/-- What the log keeps of a completed instruction. -/
structure Step where
  /-- Where the instruction stands. -/
  pc : Int
  instruction : Instruction
  /-- The stack after it. -/
  stack : OperandStack
  deriving Repr, DecidableEq

/-- A run that has ended. -/
structure Ending where
  outcome : Outcome
  /-- The stack that the run leaves behind. -/
  stack : OperandStack
  /-- The completed instructions in order, if they were logged. -/
  log : Array Step
  deriving Repr, DecidableEq

namespace Machine

/-- The program counter as an offset inside the code. -/
def fetchPosition? (code : Code) (m : Machine) : Option Nat :=
  if 0 ≤ m.pc ∧ m.pc < code.size then some m.pc.toNat else none

/-- The program counter stands behind the last byte. -/
def atEnd (code : Code) (m : Machine) : Bool := m.pc == code.size

/-- One turn. -/
def turn (code : Code) (m : Machine) : Turn :=
  if m.atEnd code then .fellOff
  else
    match m.fetchPosition? code with
    | none => .faulted (.pcOutOfBounds code.size) m
    | some pos =>
      match Cursor.instruction { code, pos } with
      | (.error e, _) => .faulted (.ofDecodeError code.size e) m
      | (.ok i, behind) =>
        match execute i { m with pc := behind.pos } with
        | .ok flow after => .completed i flow after
        | .error kind after => .faulted kind after

/-- Take turns until the run ends, at most as many as given. The steps are added to `log` if
`logged` is set. -/
def run (logged : Bool) (code : Code) : (turns : Nat) → Machine → (log : Array Step) →
    Option Ending
  | 0, _, _ => none
  | turns + 1, m, log =>
    match m.turn code with
    | .fellOff =>
      some
        { outcome := .completed { value := 0, termination := .fellOff }
          stack := m.stack
          log }
    | .faulted kind after =>
      some { outcome := .faulted { kind, pc := m.pc }, stack := after.stack, log }
    | .completed instruction flow after =>
      let log :=
        if logged then log.push { pc := m.pc, instruction, stack := after.stack } else log
      match flow with
      | .next => run logged code turns after log
      | .stop completion => some { outcome := .completed completion, stack := after.stack, log }

end Machine

end StackMachine
