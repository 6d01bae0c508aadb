import StackMachine.Proofs.Machine.Log

/-!
# Using an executor again

An executor carries nothing from one run to the next: whatever it has run, and whether these runs
completed or faulted, its next execution is that of an executor that has not run anything yet
(`Executor.execute?_of_used`).

An execution takes from its executor the limits, whether it is set to debugging, and, for its empty
stack, the capacity of the stack that is there. The first two are not changed by a run; that the
capacity is not either, wherever a run stops, is `Machine.Ends.capacity`.
-/

namespace StackMachine.Executor

open Relation

/-- Something is done with an executor. -/
inductive Uses : Executor → Executor → Prop
  /-- Debugging is turned on or off. -/
  | setDebug {x : Executor} (debug : Bool) : Uses x (x.setDebug debug)
  /-- A code is run to an end, whichever it is. -/
  | execute {x : Executor} {turns : Nat} {code : Code} {e : Execution}
      (h : x.execute? turns code = some e) : Uses x e.executor

/-- An executor on which any number of things were done, under some limits. -/
def Used (limits : Limits) (x : Executor) : Prop := ReflTransGen Uses (ofLimits limits) x

theorem capacity_of_execute? {x : Executor} {turns : Nat} {code : Code} {e : Execution}
    (h : x.execute? turns code = some e) :
    e.executor.limits = x.limits ∧ e.executor.stack.capacity = x.stack.capacity := by
  obtain ⟨last, hlast, hends⟩ := reachable_of_execute? h
  obtain ⟨ending, -, rfl⟩ := Option.map_eq_some_iff.1 h
  exact ⟨rfl, hends.capacity.trans hlast.within.capacity⟩

/-- Nothing that is done with an executor changes its limits or the capacity of its stack. -/
theorem Used.limits_capacity {limits : Limits} {x : Executor} (h : Used limits x) :
    x.limits = limits ∧ x.stack.capacity = limits.stackCapacity := by
  induction h with
  | refl => exact ⟨rfl, OperandStack.capacity_empty _⟩
  | tail _ hu ih =>
    cases hu with
    | setDebug => exact ih
    | execute he =>
      obtain ⟨hlimits, hcapacity⟩ := capacity_of_execute? he
      exact ⟨hlimits.trans ih.1, hcapacity.trans ih.2⟩

/-- An execution depends on no more of its executor than this. -/
theorem execute?_congr {x y : Executor} (hlimits : x.limits = y.limits) (hdebug : x.debug = y.debug)
    (hcapacity : x.stack.capacity = y.stack.capacity) (turns : Nat) (code : Code) :
    x.execute? turns code = y.execute? turns code := by
  obtain ⟨limits, debug, stack⟩ := x
  obtain ⟨_, _, stack'⟩ := y
  cases hlimits
  cases hdebug
  have hclear : stack.clear = stack'.clear := congrArg OperandStack.empty hcapacity
  simp only [execute?, hclear]

/-- **An executor carries nothing over.** After any number of executions of any codes, whatever
their outcomes, and of changes to its debugging, it still has its limits, and every execution on it
has the outcome, the events and the remaining stack of one on an executor that has not run anything
and is set to debugging just if this one is. -/
theorem execute?_of_used {limits : Limits} {x : Executor} (h : Used limits x) :
    x.limits = limits ∧
      ∀ turns code,
        x.execute? turns code = ((ofLimits limits).setDebug x.debug).execute? turns code := by
  obtain ⟨hlimits, hcapacity⟩ := h.limits_capacity
  refine ⟨hlimits, execute?_congr hlimits rfl ?_⟩
  exact hcapacity.trans (OperandStack.capacity_empty _).symm

/-- A run that faults on a byte leaves three values behind, of which the next one finds none. -/
theorem execute?_of_used_three_left :
    ∃ x, Used ⟨3, 1⟩ x ∧ x.debug = true ∧ x.stack.values = [3, 2, 1] ∧
      (x.execute? 1 #[0x60]).map Execution.outcome = some (.faulted ⟨.stackUnderflow, 0⟩) := by
  have hrun : (ofLimits ⟨3, 1⟩).execute? 4 #[0x04, 0x05, 0x06, 0xb8] = some
      { outcome := .faulted ⟨.unknownOpcode 0xb8, 3⟩
        executor := ⟨⟨3, 1⟩, false, ⟨[3, 2, 1], 0⟩⟩
        events := [.executing 4 ⟨3, 1⟩, .faulted ⟨.unknownOpcode 0xb8, 3⟩] } := rfl
  have h : Used ⟨3, 1⟩ ⟨⟨3, 1⟩, true, ⟨[3, 2, 1], 0⟩⟩ :=
    .tail (.single (.execute hrun)) (.setDebug true)
  refine ⟨_, h, rfl, rfl, ?_⟩
  rw [(execute?_of_used h).2]
  rfl

end StackMachine.Executor
