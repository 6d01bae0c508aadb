import StackMachine.Proofs.Instruction.Codec
import StackMachine.Proofs.Machine.Turns

/-!
# Where a run can come to

A branch may go anywhere, into the middle of an instruction or out of the code. But if the
branches of a list of instructions all go to the beginning of one of them or behind the last one,
then so does every turn of a run over their encoding (`Reachable.boundary`). Such a run meets only
instructions of the list, and no fault of it is one of reading the code (`Ends.outcome_cases`).
-/

namespace StackMachine

/-- The fault comes from carrying out an instruction, not from reading one. -/
def FaultKind.OfExecution : FaultKind → Prop
  | .stackOverflow _ | .stackUnderflow | .divisionByZero | .localOutOfBounds .. => True
  | .unknownOpcode _ | .truncatedOperand .. | .pcOutOfBounds _ => False

namespace Machine

/-! ### Branches -/

/-- The instruction branches when it is carried out on the machine. -/
def Takes (m : Machine) : Instruction → Prop
  | .goto _ => True
  | .ifIcmp cond _ => ∃ right left values,
      m.stack.values = right :: left :: values ∧ cond.holds left right = true
  | _ => False

theorem Fails.ofExecution {i : Instruction} {m after : Machine} {kind : FaultKind}
    (h : Fails i m kind after) : kind.OfExecution := by
  cases h <;> trivial

/-- A branch counts its offset from its own opcode, which is as far back as it is long. -/
theorem pc_behind_add {m : Machine} {pos : Nat} {i : Instruction} {offset : Int16}
    (ho : i.branchOffset? = some offset) :
    (m.behind pos i).pc + offset.toInt - branchSize = pos + offset.toInt := by
  cases i <;> cases ho
  all_goals
    simp only [behind, Instruction.size, Opcode.size, branchSize, Instruction.opcode,
      Opcode.immediate, Immediate.width]
    omega

/-- An instruction goes on behind itself, or it is a branch that is taken and goes on at its
target. -/
theorem Performs.pc_cases {i : Instruction} {m after : Machine} {pos : Nat}
    (h : Performs i (m.behind pos i) .next after) :
    after.pc = (pos + i.size : Nat) ∨
      Takes m i ∧ ∃ offset, i.branchOffset? = some offset ∧ after.pc = pos + offset.toInt := by
  cases h with
  | branchIf hc hs =>
    exact .inr ⟨⟨_, _, _, congrArg OperandStack.values hs, hc⟩, _, rfl, pc_behind_add rfl⟩
  | goto => exact .inr ⟨trivial, _, rfl, pc_behind_add rfl⟩
  | _ => exact .inl rfl

/-- A branch that is taken goes to its target. -/
theorem turn_of_takes {code : Code} {m : Machine} {pos : Nat} {i : Instruction} {offset : Int16}
    (hpc : m.pc = pos) (hi : InstructionAt code pos i) (ho : i.branchOffset? = some offset)
    (ht : Takes m i) :
    ∃ after, m.turn code = .completed i .next after ∧ after.pc = pos + offset.toInt := by
  cases i with
  | goto =>
    cases ho
    exact ⟨_, turn_of_performs hpc hi .goto, pc_behind_add rfl⟩
  | ifIcmp cond =>
    cases ho
    obtain ⟨right, left, values, hs, hc⟩ := ht
    obtain ⟨⟨_, room⟩, pc, locals⟩ := m
    cases hs
    exact ⟨_, turn_of_performs hpc hi (.branchIf hc rfl), pc_behind_add rfl⟩
  | _ => cases ho

/-! ### Boundaries -/

/-- The beginning of one of the instructions, or the end of the last one. -/
def Boundary (is : List Instruction) (pc : Int) : Prop :=
  pc = totalSize is ∨ ∃ l ∈ laidOut 0 is, pc = l.start

/-- All branches go to boundaries. -/
def BranchesInside (is : List Instruction) : Prop :=
  ∀ l ∈ laidOut 0 is, ∀ offset, l.instruction.branchOffset? = some offset →
    Boundary is (l.start + offset.toInt)

theorem boundary_zero (is : List Instruction) : Boundary is 0 := by
  cases is with
  | nil => exact .inl rfl
  | cons i is => exact .inr ⟨_, .head _, rfl⟩

section

variable {is : List Instruction} {code : Code} (he : Instruction.encodeAll is = .ok code)
  {m : Machine}

include he

/-- At a boundary the run falls off the end, or an instruction of the list stands there. -/
theorem Boundary.cases (hm : Boundary is m.pc) :
    (m.pc = code.size ∧ m.turn code = .fellOff) ∨
      ∃ l ∈ laidOut 0 is, m.pc = l.start ∧ InstructionAt code l.start l.instruction := by
  obtain ⟨henc, rfl⟩ := Instruction.encodeAll_eq_ok_iff.1 he
  rcases hm with hend | ⟨l, hl, hpc⟩
  · have hend : m.pc = (is.flatMap Instruction.bytes).toArray.size := by
      rw [hend, List.size_toArray, length_flatMap_bytes]
    exact .inl ⟨hend, turn_of_eq_size hend⟩
  · exact .inr ⟨l, hl, hpc, instructionAt_of_mem_laidOut henc (holdsAt_toArray _) hl⟩

/-- A turn goes from boundary to boundary. -/
theorem Next.boundary (hb : BranchesInside is) {m' : Machine} (h : Next code m m')
    (hm : Boundary is m.pc) : Boundary is m'.pc := by
  obtain ⟨i, ht⟩ := h
  obtain ⟨pos, hpc, hi, hp⟩ := turn_eq_completed_iff.1 ht
  rcases Boundary.cases he hm with ⟨-, hoff⟩ | ⟨l, hl, hpc', hl'⟩
  · cases hoff.symm.trans ht
  obtain rfl : l.start = pos := Int.ofNat.inj (hpc'.symm.trans hpc)
  obtain rfl := hl'.unique hi
  rcases hp.pc_cases with hnext | ⟨-, offset, ho, hbranch⟩
  · rw [hnext]
    rcases next_of_mem_laidOut hl with h | ⟨next, hn, h⟩
    · exact .inl (by rw [h, Nat.zero_add])
    · exact .inr ⟨next, hn, by rw [h]⟩
  · rw [hbranch]
    exact hb l hl offset ho

/-- **A run stays on boundaries** if all branches go to boundaries. -/
theorem Reachable.boundary (hb : BranchesInside is) {limits : Limits}
    (h : Reachable limits code m) : Boundary is m.pc := by
  induction h with
  | refl => exact boundary_zero is
  | tail _ hnext ih => exact hnext.boundary he hb ih

/-- On boundaries a run completes, or an instruction fails. -/
theorem Ends.outcome_cases {outcome : Outcome} {stack : OperandStack}
    (h : Ends code m outcome stack) (hm : Boundary is m.pc) :
    (∃ completion, outcome = .completed completion) ∨
      ∃ fault, outcome = .faulted fault ∧ fault.kind.OfExecution := by
  cases h with
  | fellOff | stopped => exact .inl ⟨_, rfl⟩
  | faulted ht =>
    refine .inr ⟨_, rfl, ?_⟩
    rcases Boundary.cases he hm with ⟨-, hoff⟩ | ⟨l, hl, hpc, hi⟩
    · cases hoff.symm.trans ht
    · rcases goes l.instruction (m.behind l.start l.instruction) with
        ⟨flow, after, hp⟩ | ⟨kind, after, hf⟩
      · cases (turn_of_performs hpc hi hp).symm.trans ht
      · cases (turn_of_fails hpc hi hf).symm.trans ht
        exact hf.ofExecution

end

end Machine

end StackMachine
