import StackMachine.Proofs.Machine.Boundaries
import StackMachine.Proofs.Machine.Log

/-!
# What a fault leaves behind

An instruction that fails has popped its operands, as many of them as there were, and has done
nothing else (`Fails.after_eq`): there is no result on the stack, no local variable has changed, and
no branch was taken. A fault in reading the code has not even done that. So the stack that an
executor shows after a fault is the one in front of the instruction at fault, without the operands
of this instruction (`leftovers_of_fault`).
-/

namespace StackMachine

namespace Instruction

theorem operandCount_of_constant? {i : Instruction} {v : Value} (h : i.constant? = some v) :
    i.operandCount = 0 := by
  cases i <;> first | rfl | cases h

theorem operandCount_of_loaded? {i : Instruction} {index : UInt8} (h : i.loaded? = some index) :
    i.operandCount = 0 := by
  cases i <;> first | rfl | cases h

end Instruction

namespace OperandStack

/-- What is left of a stack when `n` values were popped, or all of them if there were fewer. -/
structure Leaves (s : OperandStack) (n : Nat) (t : OperandStack) : Prop where
  /-- The values that are gone were on top. -/
  values : ∃ popped, s.values = popped ++ t.values ∧ popped.length = min s.depth n
  /-- There is room for as many values as before. -/
  capacity : t.capacity = s.capacity

variable {s t : OperandStack} {n : Nat}

@[simp] theorem drop_zero (s : OperandStack) : s.drop 0 = s := by simp [drop]

theorem leaves_drop (s : OperandStack) (n : Nat) : s.Leaves n (s.drop n) where
  values := by
    refine ⟨s.values.take n, (List.take_append_drop n s.values).symm, ?_⟩
    rw [List.length_take, Nat.min_comm]
    rfl
  capacity := capacity_drop s n

/-- Seen from the bottom, what is left is how the stack begins. -/
theorem Leaves.bottomUp_isPrefix (h : s.Leaves n t) : t.bottomUp <+: s.bottomUp := by
  obtain ⟨popped, hv, -⟩ := h.values
  refine ⟨popped.reverse, ?_⟩
  rw [bottomUp, bottomUp, hv, List.reverse_append]

end OperandStack

namespace Machine

variable {code : Code} {m after : Machine} {i : Instruction} {kind : FaultKind}

/-- An instruction that fails has popped its operands and done nothing else. -/
theorem Fails.after_eq (h : Fails i m kind after) :
    after = { m with stack := m.stack.drop i.operandCount } := by
  cases h with
  | constantFull hi => simp [Instruction.operandCount_of_constant? hi]
  | loadOutside hi | loadFull hi => simp [Instruction.operandCount_of_loaded? hi]
  | storeOutside hi => simp [Instruction.operandCount_of_stored? hi]
  | underflow | noResult => rfl

/-- What is left of a machine when a turn on it has faulted: no local variable has changed, and the
stack is the same, or without the operands of the instruction that failed. -/
inductive FaultLeaves (code : Code) (m : Machine) (kind : FaultKind) (after : Machine) : Prop
  /-- There was no instruction to carry out. -/
  | reading (hk : ¬ kind.OfExecution) (ha : after = m)
  /-- The instruction at the program counter failed. -/
  | executing {pos : Nat} {i : Instruction} (hk : kind.OfExecution) (hpc : m.pc = pos)
      (hi : InstructionAt code pos i) (hl : after.locals = m.locals)
      (hs : m.stack.Leaves i.operandCount after.stack)

theorem faultLeaves_of_turn (h : m.turn code = .faulted kind after) :
    FaultLeaves code m kind after := by
  rcases turn_cases code m with ⟨-, e⟩ | ⟨-, e⟩ |
    ⟨pos, hpc, -, ⟨b, -, -, e⟩ | ⟨op, -, -, e⟩ | ⟨i, hi, ⟨_, _, -, e⟩ | ⟨_, _, hf, e⟩⟩⟩ <;>
    cases e.symm.trans h
  · exact .reading id rfl
  · exact .reading id rfl
  · exact .reading id rfl
  · rw [hf.after_eq]
    exact .executing hf.ofExecution hpc hi rfl (OperandStack.leaves_drop _ _)

theorem FaultLeaves.locals (h : FaultLeaves code m kind after) : after.locals = m.locals := by
  cases h with
  | reading _ ha => rw [ha]
  | executing _ _ _ hl _ => exact hl

theorem FaultLeaves.bottomUp_isPrefix (h : FaultLeaves code m kind after) :
    after.stack.bottomUp <+: m.stack.bottomUp := by
  cases h with
  | reading _ ha =>
    subst ha
    exact List.prefix_refl _
  | executing _ _ _ _ hs => exact hs.bottomUp_isPrefix

/-- **What a fault leaves behind.** An instruction that fails, on whatever machine, leaves the local
variables and the program counter as they are, and of the stack it has popped as many values as it
has operands, or all of them if there were fewer. A turn that faults leaves the local variables as
they are as well, and the stack too if it comes to no instruction; otherwise the instruction at the
program counter has popped its operands. So the stack that an executor shows after a fault is how
the stack in front of the faulting turn began. -/
theorem leftovers_of_fault :
    (∀ i m kind after, execute i m = .error kind after →
      after.locals = m.locals ∧ after.pc = m.pc ∧ m.stack.Leaves i.operandCount after.stack) ∧
    (∀ code m kind after, m.turn code = .faulted kind after →
      FaultLeaves code m kind after ∧ after.locals = m.locals ∧
        after.stack.bottomUp <+: m.stack.bottomUp) ∧
    ∀ (x : Executor) turns code e fault, x.execute? turns code = some e →
      e.outcome = .faulted fault →
        ∃ m after, Reachable ⟨x.stack.capacity, x.limits.localsCapacity⟩ code m ∧
          m.pc = fault.pc ∧ m.turn code = .faulted fault.kind after ∧
          FaultLeaves code m fault.kind after ∧ e.executor.stack = after.stack ∧
          e.executor.stack.bottomUp <+: m.stack.bottomUp := by
  refine ⟨?_, ?_, ?_⟩
  · intro i m kind after h
    rw [(execute_eq_error_iff.1 h).after_eq]
    exact ⟨rfl, rfl, OperandStack.leaves_drop _ _⟩
  · intro code m kind after h
    have hleaves := faultLeaves_of_turn h
    exact ⟨hleaves, hleaves.locals, hleaves.bottomUp_isPrefix⟩
  · intro x turns code e fault he hfault
    obtain ⟨m, hm, hends⟩ := Executor.reachable_of_execute? he
    rw [hfault] at hends
    generalize e.executor.stack = stack at hends ⊢
    cases hends with
    | faulted ht =>
      have hleaves := faultLeaves_of_turn ht
      exact ⟨m, _, hm, rfl, ht, hleaves, rfl, hleaves.bottomUp_isPrefix⟩

/-- A division by zero takes the zero and the dividend away, and leaves what stands below them. -/
theorem leftovers_of_fault_division :
    let code : Code := #[0x08, 0x04, 0x03, 0x6c]
    ∃ e, (Executor.ofLimits ⟨3, 0⟩).execute? 4 code = some e ∧
      e.outcome = .faulted ⟨.divisionByZero, 3⟩ ∧ e.executor.stack.bottomUp = [5] ∧
      ∃ m, Reachable ⟨3, 0⟩ code m ∧ m.pc = 3 ∧ e.executor.stack.bottomUp <+: m.stack.bottomUp := by
  intro code
  let atPc (pc : Int) (values : List Value) (room : Nat) : Machine := ⟨⟨values, room⟩, pc, #[]⟩
  have hfive : (atPc 0 [] 3).turn code = .completed (.iconst 5) .next (atPc 1 [5] 2) := by decide
  have hone : (atPc 1 [5] 2).turn code = .completed (.iconst 1) .next (atPc 2 [1, 5] 1) := by
    decide
  have hzero : (atPc 2 [1, 5] 1).turn code =
      .completed (.iconst 0) .next (atPc 3 [0, 1, 5] 0) := by decide
  have hdiv : (atPc 3 [0, 1, 5] 0).turn code = .faulted .divisionByZero (atPc 4 [5] 2) := by decide
  obtain ⟨e, he, hfault, hstack⟩ : ∃ e, (Executor.ofLimits ⟨3, 0⟩).execute? 4 code = some e ∧
      e.outcome = .faulted ⟨.divisionByZero, 3⟩ ∧ e.executor.stack = ⟨[5], 2⟩ :=
    Executor.exists_execute?_iff_runs.2
      ⟨4, Nat.le_refl 4, _, .next hfive (.next hone (.next hzero (.faulted hdiv)))⟩
  obtain ⟨m, after, hm, hpc, -, -, -, hprefix⟩ := leftovers_of_fault.2.2 _ _ _ _ _ he hfault
  exact ⟨e, he, hfault, by rw [hstack]; rfl, m, hm, hpc, hprefix⟩

end Machine

end StackMachine
