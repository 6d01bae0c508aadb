import StackMachine.Event

/-!
# Executors

An executor runs one code after the other under the same limits. Every run starts on a cleared
stack, and the stack that it leaves behind can be looked at until the next one. What happens is
told in events: the start and the end of each run, and in between, if the executor is set to
debugging, every completed instruction.
-/

namespace StackMachine

/-- An executor between two runs. -/
structure Executor where
  limits : Limits
  /-- Every completed instruction is told about. -/
  debug : Bool
  /-- The stack that the last run left behind. -/
  stack : OperandStack
  deriving Repr, DecidableEq

/-- A finished run of an executor. -/
structure Execution where
  outcome : Outcome
  /-- The executor after the run. -/
  executor : Executor
  /-- What was told, in order. -/
  events : List Event
  deriving Repr, DecidableEq

namespace Executor

/-- An executor that has not run anything. -/
def ofLimits (limits : Limits) : Executor :=
  { limits, debug := false, stack := .empty limits.stackCapacity }

/-- The executor with debugging turned on or off. -/
def setDebug (x : Executor) (debug : Bool) : Executor := { x with debug }

/-- Run a code from its first byte. A run that does not end within the given number of turns has
no execution. -/
def execute? (turns : Nat) (x : Executor) (code : Code) : Option Execution :=
  (Machine.run x.debug code turns (.start x.stack.clear x.limits.localsCapacity) #[]).map
    fun ending =>
      { outcome := ending.outcome
        executor := { x with stack := ending.stack }
        events :=
          .executing code.size x.limits ::
            (ending.log.toList.map .step ++ [ending.outcome.event]) }

/-- A number of turns that no run of the machine reaches before it is stopped from outside. -/
def patience : Nat := 0x4000000000000000

end Executor

end StackMachine
