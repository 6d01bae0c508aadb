import StackMachine.Machine.Run

/-!
# Events

What is told about work on programs, for people to read: each event has a headline and some
details by name, all of them texts.
-/

namespace StackMachine

/-- What is told about work on programs. -/
inductive Event where
  /-- A run starts. -/
  | executing (codeLength : Nat) (limits : Limits)
  /-- An instruction was completed. -/
  | step (step : Step)
  /-- A run ended without a fault. -/
  | finished (completion : Completion)
  /-- A run ended with a fault. -/
  | faulted (fault : Fault)
  /-- A program was read from a file. -/
  | loaded (codeLength : Nat) (version : UInt16)
  /-- A program was written to a file. -/
  | saved (codeLength : Nat) (path : String)
  deriving Repr, DecidableEq

/-- The event that tells how a run ended. -/
def Outcome.event : Outcome → Event
  | .completed completion => .finished completion
  | .faulted fault => .faulted fault

/-- The class of a fault as events name it. -/
def FaultClass.title : FaultClass → String
  | .stack => "Stack"
  | .arithmetic => "Arithmetic"
  | .malformedProgram => "MalformedProgram"

namespace Event

/-- The headline of an event. -/
def message : Event → String
  | .executing .. => "executing"
  | .step _ => "step"
  | .finished _ => "execution finished"
  | .faulted _ => "execution faulted"
  | .loaded .. => "loaded bytecode"
  | .saved .. => "saved bytecode"

/-- The details of an event, by name. -/
def fields : Event → List (String × String)
  | .executing codeLength limits =>
    [("code_len", toString codeLength), ("stack_capacity", toString limits.stackCapacity),
      ("locals_capacity", toString limits.localsCapacity)]
  | .step s =>
    [("pc", toString s.pc), ("instruction", s.instruction.text), ("stack", s.stack.text)]
  | .finished completion =>
    [("value", toString completion.value.toInt), ("termination", completion.termination.text)]
  | .faulted fault => [("fault", fault.message), ("class", fault.kind.faultClass.title)]
  | .loaded codeLength version =>
    [("len", toString codeLength), ("version", toString version.toNat)]
  | .saved codeLength path => [("len", toString codeLength), ("path", path)]

end Event

end StackMachine
