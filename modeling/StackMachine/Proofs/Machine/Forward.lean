import StackMachine.Proofs.Machine.Boundaries
import StackMachine.Proofs.Machine.Log

/-!
# Code without branches back

A run can only go on forever by branching back. If no branch goes back, wherever in the code it may
be decoded, then the program counter grows with every turn behind which the run goes on
(`Machine.pc_lt_of_turn`). So there are no more completed instructions than there are bytes
(`Machine.exists_runs`), and every execution ends (`Executor.execute?_of_forwardOnly`).

The branches that a linear walk over the code meets are not enough: one of them may lead into the
middle of an instruction, and from there the run decodes what no walk has seen. So the condition is
on every position of the code.
-/

namespace StackMachine

/-! ### The condition -/

/-- A branch that is decoded at any position of the code, be it in the middle of another
instruction, goes forward. -/
def ForwardOnly (code : Code) : Prop :=
  ∀ pos i offset, (Cursor.instruction { code, pos }).1 = .ok i →
    i.branchOffset? = some offset → 0 < offset.toInt

/-- Behind the last byte nothing is decoded, so that the positions of the bytes can be gone
through. -/
instance (code : Code) : Decidable (ForwardOnly code) :=
  decidable_of_iff
    (∀ pos < code.size, (Cursor.instruction { code, pos }).1.toOption.all fun i =>
      i.branchOffset?.all (0 < ·.toInt)) <| by
    constructor
    · intro h pos i offset hi ho
      have hlt := (Cursor.instruction_eq_ok_iff.1 (Prod.ext hi rfl)).1.lt_size
      simpa [hi, ho, Except.toOption] using h pos hlt
    · intro h pos _
      cases hi : (Cursor.instruction { code, pos }).1 with
      | error e => rfl
      | ok i =>
        cases ho : i.branchOffset? with
        | none => simp [Except.toOption, ho]
        | some offset => simpa [Except.toOption, ho] using h pos i offset hi ho

/-- The branch back stands inside the number that a linear walk finds behind the branch forth. -/
example : ¬ ForwardOnly #[0xa7, 0x00, 0x04, 0x10, 0xa7, 0xff, 0xfc] := by decide

theorem ForwardOnly.offset_pos {code : Code} {pos : Nat} {i : Instruction} {offset : Int16}
    (hf : ForwardOnly code) (hi : InstructionAt code pos i) (ho : i.branchOffset? = some offset) :
    0 < offset.toInt :=
  hf pos i offset (by rw [hi.read]) ho

/-- An instruction that branches has the byte of a branch opcode. -/
theorem InstructionAt.exists_branch_mem {code : Code} {pos : Nat} {i : Instruction} {offset : Int16}
    (hi : InstructionAt code pos i) (ho : i.branchOffset? = some offset) :
    ∃ op : Opcode, op.immediate = .branchOffset ∧ op.byte ∈ code := by
  refine ⟨i.opcode, ?_, Array.mem_of_getElem? (holdsAt_cons.1 hi.2).1⟩
  cases i <;> first | rfl | cases ho

/-- Without the byte of a branch opcode no branch is decoded at all. -/
theorem forwardOnly_of_forall_not_mem {code : Code}
    (h : ∀ op : Opcode, op.immediate = .branchOffset → op.byte ∉ code) : ForwardOnly code := by
  intro pos i offset hi ho
  obtain ⟨op, hop, hmem⟩ :=
    (Cursor.instruction_eq_ok_iff.1 (Prod.ext hi rfl)).1.exists_branch_mem ho
  exact absurd hmem (h op hop)

namespace Machine

/-! ### The program counter grows -/

variable {code : Code} {m after : Machine} {i : Instruction} {flow : Flow}

theorem pc_lt_size_of_turn (h : m.turn code = .completed i flow after) : m.pc < code.size := by
  obtain ⟨pos, hpc, hi, -⟩ := turn_eq_completed_iff.1 h
  rw [hpc]
  exact Int.ofNat_lt.2 hi.lt_size

/-- A turn that goes on goes on further back in the code: behind its instruction, or at the target
of a branch that goes forward. -/
theorem pc_lt_of_turn (hf : ForwardOnly code) (h : m.turn code = .completed i .next after) :
    m.pc < after.pc := by
  obtain ⟨pos, hpc, hi, hp⟩ := turn_eq_completed_iff.1 h
  rcases hp.pc_cases with hnext | ⟨-, offset, ho, hbranch⟩
  · have hsize : 0 < i.size := Nat.add_pos_left Nat.one_pos _
    omega
  · have hoffset := hf.offset_pos hi ho
    omega

/-- A run has one turn more than it completes instructions, if at all. -/
theorem Runs.le_length_succ {turns : Nat} {steps : List Step} {outcome : Outcome}
    {stack : OperandStack} (h : Runs code m turns steps outcome stack) :
    turns ≤ steps.length + 1 := by
  induction h with
  | fellOff | faulted | stopped => simp
  | next _ _ ih => simpa using ih

/-- From every machine there is a run to an end, and it completes at most one instruction for each
byte that is left from the program counter on. -/
theorem exists_runs (hf : ForwardOnly code) (m : Machine) :
    ∃ turns steps outcome stack, Runs code m turns steps outcome stack ∧
      steps.length ≤ (code.size - m.pc).toNat := by
  -- The bytes that are left get fewer with every turn.
  induction hleft : (code.size - m.pc).toNat using Nat.strongRecOn generalizing m with
  | ind left ih =>
    cases ht : m.turn code with
    | fellOff => exact ⟨_, _, _, _, .fellOff ht, Nat.zero_le _⟩
    | faulted kind after => exact ⟨_, _, _, _, .faulted ht, Nat.zero_le _⟩
    | completed i flow after =>
      have hlt := pc_lt_size_of_turn ht
      cases flow with
      | stop completion =>
        refine ⟨_, _, _, _, .stopped ht, ?_⟩
        rw [List.length_singleton]
        omega
      | next =>
        have hgrows := pc_lt_of_turn hf ht
        obtain ⟨turns, steps, outcome, stack, hr, hsteps⟩ := ih _ (by omega) after rfl
        refine ⟨_, _, _, _, .next ht hr, ?_⟩
        rw [List.length_cons]
        omega

end Machine

namespace Executor

open Machine

/-- **Code without branches back terminates.** Whatever an executor has run before and whatever its
limits are, it brings a code to an end in which every branch goes forward that is decoded at any
position, and it completes at most as many instructions as the code has bytes. In particular this
is so if no byte of the code is the opcode of a branch. -/
theorem execute?_of_forwardOnly (x : Executor) (code : Code)
    (h : ForwardOnly code ∨ ∀ op : Opcode, op.immediate = .branchOffset → op.byte ∉ code)
    (turns : Nat) (ht : code.size < turns) :
    ∃ e n steps, x.execute? turns code = some e ∧
      Runs code (.start x.stack.clear x.limits.localsCapacity) n steps e.outcome
        e.executor.stack ∧
      steps.length ≤ code.size := by
  have hf : ForwardOnly code := h.elim id forwardOnly_of_forall_not_mem
  obtain ⟨n, steps, outcome, stack, hr, hsteps⟩ :=
    exists_runs hf (.start x.stack.clear x.limits.localsCapacity)
  have hlength : steps.length ≤ code.size := by simpa [Machine.start] using hsteps
  have hn : n ≤ turns := by
    have := hr.le_length_succ
    omega
  let e : Execution :=
    { outcome
      executor := { x with stack }
      events := .executing code.size x.limits ::
        ((if x.debug then steps.map .step else []) ++ [outcome.event]) }
  have he : x.execute? turns code = some e :=
    execute?_eq_some_iff.2 ⟨n, hn, steps, hr, rfl, rfl⟩
  exact ⟨e, n, steps, he, hr, hlength⟩

/-- A branch into the middle of the constant behind it, where the run finds a smaller one and then
the end, and five bytes without a branch. -/
theorem execute?_of_forwardOnly_into_operand :
    (∃ e n steps, (ofLimits ⟨1, 0⟩).execute? 7 #[0xa7, 0x00, 0x04, 0x11, 0x04, 0xac] = some e ∧
      Runs #[0xa7, 0x00, 0x04, 0x11, 0x04, 0xac] (.start (.empty 1) 0) n steps e.outcome
        e.executor.stack ∧
      steps.length ≤ 6) ∧
    ∃ e n steps, (ofLimits ⟨2, 0⟩).execute? 6 #[0x04, 0x08, 0x6c, 0x00, 0x74] = some e ∧
      Runs #[0x04, 0x08, 0x6c, 0x00, 0x74] (.start (.empty 2) 0) n steps e.outcome
        e.executor.stack ∧
      steps.length ≤ 5 := by
  have hforward : ForwardOnly #[0xa7, 0x00, 0x04, 0x11, 0x04, 0xac] := by decide
  have hno : ∀ op : Opcode, op.immediate = .branchOffset →
      op.byte ∉ (#[0x04, 0x08, 0x6c, 0x00, 0x74] : Code) := by
    intro op hop hmem
    have key : ∀ op ∈ Opcode.all, op.immediate = .branchOffset →
        op.byte ∉ [0x04, 0x08, 0x6c, 0x00, 0x74] := by decide
    exact key op op.mem_all hop (List.mem_toArray.1 hmem)
  exact ⟨execute?_of_forwardOnly (ofLimits ⟨1, 0⟩) _ (.inl hforward) 7 (by decide),
    execute?_of_forwardOnly (ofLimits ⟨2, 0⟩) _ (.inr hno) 6 (by decide)⟩

end Executor

end StackMachine
