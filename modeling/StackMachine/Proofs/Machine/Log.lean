import StackMachine.Machine.Executor
import StackMachine.Proofs.Machine.Turns

/-!
# Runs as a whole

`Machine.Runs` puts the turns of a run together: how many there are, which instructions they
complete, as a log keeps them, and how the last of them ends the run. This is all that an execution
depends on (`Machine.run_eq_some_iff`, `Executor.execute?_eq_some_iff`): the number of turns that it
is given only has to be large enough, and whether it logs decides only whether the steps are told.
-/

namespace StackMachine

namespace Machine

/-- A run from a machine on: the number of its turns, the instructions that it completes one after
the other, and its end. -/
inductive Runs (code : Code) : Machine → Nat → List Step → Outcome → OperandStack → Prop
  /-- The end of the code has been reached. -/
  | fellOff {m : Machine} (h : m.turn code = .fellOff) :
      Runs code m 1 [] (.completed { value := 0, termination := .fellOff }) m.stack
  /-- The turn faults and completes nothing. -/
  | faulted {m after : Machine} {kind : FaultKind} (h : m.turn code = .faulted kind after) :
      Runs code m 1 [] (.faulted { kind, pc := m.pc }) after.stack
  /-- The instruction is completed and ends the run. -/
  | stopped {m after : Machine} {i : Instruction} {completion : Completion}
      (h : m.turn code = .completed i (.stop completion) after) :
      Runs code m 1 [{ pc := m.pc, instruction := i, stack := after.stack }]
        (.completed completion) after.stack
  /-- The instruction is completed, and the run goes on. -/
  | next {m after : Machine} {i : Instruction} {turns : Nat} {steps : List Step}
      {outcome : Outcome} {stack : OperandStack} (h : m.turn code = .completed i .next after)
      (hr : Runs code after turns steps outcome stack) :
      Runs code m (turns + 1) ({ pc := m.pc, instruction := i, stack := after.stack } :: steps)
        outcome stack

variable {code : Code} {m : Machine}

theorem runs_of_run {logged : Bool} {turns : Nat} {log : Array Step} {ending : Ending}
    (h : m.run logged code turns log = some ending) :
    ∃ n ≤ turns, ∃ steps, Runs code m n steps ending.outcome ending.stack ∧
      ending.log = if logged then log ++ steps.toArray else log := by
  induction turns generalizing m log with
  | zero => cases h
  | succ turns ih =>
    unfold run at h
    split at h
    · next ht =>
      cases h
      exact ⟨1, by omega, [], .fellOff ht, by simp⟩
    · next kind after ht =>
      cases h
      exact ⟨1, by omega, [], .faulted ht, by simp⟩
    · next i flow after ht =>
      cases flow with
      | next =>
        obtain ⟨n, hn, steps, hr, hlog⟩ := ih h
        refine ⟨n + 1, Nat.succ_le_succ hn, _, .next ht hr, hlog.trans ?_⟩
        cases logged <;> simp
      | stop completion =>
        cases h
        refine ⟨1, by omega, _, .stopped ht, ?_⟩
        cases logged <;> simp

theorem Runs.run {n : Nat} {steps : List Step} {outcome : Outcome} {stack : OperandStack}
    (h : Runs code m n steps outcome stack) {turns : Nat} (hn : n ≤ turns) (logged : Bool)
    (log : Array Step) :
    m.run logged code turns log =
      some { outcome, stack, log := if logged then log ++ steps.toArray else log } := by
  induction h generalizing turns log with
  | fellOff ht | faulted ht | stopped ht =>
    obtain ⟨turns, rfl⟩ := Nat.exists_eq_add_of_le' hn
    unfold Machine.run
    rw [ht]
    cases logged <;> simp
  | next ht _ ih =>
    obtain ⟨turns, rfl⟩ := Nat.exists_eq_add_of_le' (Nat.le_of_add_left_le hn)
    unfold Machine.run
    rw [ht]
    refine (ih (Nat.le_of_succ_le_succ hn) _).trans ?_
    cases logged <;> simp

/-- **A run is decided by its turns**: it ends with enough of them, and then it has logged the steps
if it was asked to. -/
theorem run_eq_some_iff {logged : Bool} {turns : Nat} {log : Array Step} {ending : Ending} :
    m.run logged code turns log = some ending ↔
      ∃ n ≤ turns, ∃ steps, Runs code m n steps ending.outcome ending.stack ∧
        ending.log = if logged then log ++ steps.toArray else log := by
  constructor
  · exact runs_of_run
  · rintro ⟨n, hn, steps, hr, hlog⟩
    rw [hr.run hn logged log, ← hlog]

end Machine

/-- **An execution is a run and what is told about it.** -/
theorem Executor.execute?_eq_some_iff {x : Executor} {turns : Nat} {code : Code} {e : Execution} :
    x.execute? turns code = some e ↔
      ∃ n ≤ turns, ∃ steps,
        Machine.Runs code (.start x.stack.clear x.limits.localsCapacity) n steps e.outcome
          e.executor.stack ∧
        e.executor = { x with stack := e.executor.stack } ∧
        e.events = .executing code.size x.limits ::
          ((if x.debug then steps.map .step else []) ++ [e.outcome.event]) := by
  unfold Executor.execute?
  rw [Option.map_eq_some_iff]
  constructor
  · rintro ⟨ending, hrun, rfl⟩
    obtain ⟨n, hn, steps, hr, hlog⟩ := Machine.run_eq_some_iff.1 hrun
    refine ⟨n, hn, steps, hr, rfl, ?_⟩
    rw [hlog]
    cases x.debug <;> simp
  · rintro ⟨n, hn, steps, hr, hx, he⟩
    refine ⟨_, hr.run hn x.debug #[], ?_⟩
    obtain ⟨outcome, executor, events⟩ := e
    dsimp only at hx he ⊢
    rw [← hx, he]
    cases x.debug <;> simp

/-- Debugging changes what is told about an execution, and not how it ends. -/
theorem Executor.map_outcome_setDebug (x : Executor) (debug : Bool) (turns : Nat) (code : Code) :
    ((x.setDebug debug).execute? turns code).map Execution.outcome =
      (x.execute? turns code).map Execution.outcome := by
  have houtcome (y : Executor) (outcome : Outcome) :
      (y.execute? turns code).map Execution.outcome = some outcome ↔
        ∃ n ≤ turns, ∃ steps stack, Machine.Runs code
          (.start y.stack.clear y.limits.localsCapacity) n steps outcome stack := by
    rw [Option.map_eq_some_iff]
    constructor
    · rintro ⟨e, he, rfl⟩
      obtain ⟨n, hn, steps, hr, -⟩ := execute?_eq_some_iff.1 he
      exact ⟨n, hn, steps, _, hr⟩
    · rintro ⟨n, hn, steps, stack, hr⟩
      exact ⟨⟨outcome, { y with stack }, .executing code.size y.limits ::
        ((if y.debug then steps.map .step else []) ++ [outcome.event])⟩,
        execute?_eq_some_iff.2 ⟨n, hn, steps, hr, rfl, rfl⟩, rfl⟩
  exact Option.ext fun outcome => (houtcome _ outcome).trans (houtcome x outcome).symm

/-- An execution ends at a machine that a run comes to. How many values there may be on its stack is
taken from the stack of the executor, and not from the limits. -/
theorem Executor.reachable_of_execute? {x : Executor} {turns : Nat} {code : Code} {e : Execution}
    (h : x.execute? turns code = some e) :
    ∃ last, Machine.Reachable ⟨x.stack.capacity, x.limits.localsCapacity⟩ code last ∧
      Machine.Ends code last e.outcome e.executor.stack := by
  obtain ⟨ending, hrun, rfl⟩ := Option.map_eq_some_iff.1 h
  exact Machine.steps_of_run hrun

/-- An executor that has not run anything runs a code from the start, under its limits. -/
theorem Executor.exists_execute?_iff_runs {limits : Limits} {turns : Nat} {code : Code}
    {outcome : Outcome} {stack : OperandStack} :
    (∃ e, (ofLimits limits).execute? turns code = some e ∧ e.outcome = outcome ∧
        e.executor.stack = stack) ↔
      ∃ n ≤ turns, ∃ steps, Machine.Runs code limits.start n steps outcome stack := by
  have hstart : Machine.start (ofLimits limits).stack.clear
      (ofLimits limits).limits.localsCapacity = limits.start := by
    simp [ofLimits, OperandStack.clear, Limits.start]
  simp only [execute?_eq_some_iff, hstart]
  constructor
  · rintro ⟨e, ⟨n, hn, steps, hr, -⟩, rfl, rfl⟩
    exact ⟨n, hn, steps, hr⟩
  · rintro ⟨n, hn, steps, hr⟩
    exact ⟨⟨outcome, { ofLimits limits with stack }, [.executing code.size limits, outcome.event]⟩,
      ⟨n, hn, steps, hr, rfl, rfl⟩, rfl, rfl⟩

/-- An executor that has not run anything runs a code to the end that a machine which it comes to
has before it. -/
theorem Executor.exists_execute?_iff_ends {limits : Limits} {code : Code} {outcome : Outcome}
    {stack : OperandStack} :
    (∃ turns e, (ofLimits limits).execute? turns code = some e ∧ e.outcome = outcome ∧
        e.executor.stack = stack) ↔
      ∃ last, Machine.Reachable limits code last ∧ Machine.Ends code last outcome stack := by
  constructor
  · rintro ⟨turns, e, he, rfl, rfl⟩
    have h := reachable_of_execute? he
    rwa [ofLimits, OperandStack.capacity_empty] at h
  · rintro ⟨last, hlast, hends⟩
    obtain ⟨turns, log, hrun⟩ :=
      (@Machine.exists_run_iff false _ _ #[] _ _).2 ⟨last, hlast, hends⟩
    obtain ⟨n, hn, steps, hr, -⟩ := Machine.runs_of_run hrun
    obtain ⟨e, he⟩ := exists_execute?_iff_runs.2 ⟨n, hn, steps, hr⟩
    exact ⟨turns, e, he⟩

end StackMachine
