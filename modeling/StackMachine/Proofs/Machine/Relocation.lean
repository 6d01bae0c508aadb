import StackMachine.Proofs.Machine.Boundaries
import StackMachine.Proofs.Machine.Log

/-!
# Code at another place

A branch counts from where it stands, so a code may be put behind other bytes and runs as before,
only further on (`Executor.execute?_behind_nops`).

A turn reads few bytes of a code (`Machine.Fetches`). Where the same bytes stand `k` further on, a
machine that is `k` further on has the same turn (`Machine.turn_moved`), and so a run from there has
the same turns, as long as each of them has (`Machine.Runs.moved`). Behind other bytes this holds of
every place but those in front of the code: what would be outside it may be inside the other bytes
there. So no branch may go there.
-/

namespace StackMachine

/-! ### Places further on -/

/-- A kind of fault in a code that is longer by `k` bytes. -/
def FaultKind.moved (k : Nat) : FaultKind → FaultKind
  | .pcOutOfBounds length => .pcOutOfBounds (length + k)
  | kind => kind

/-- An outcome whose fault is `k` bytes further on, in a code that is longer by them. -/
def Outcome.moved (k : Nat) : Outcome → Outcome
  | .completed completion => .completed completion
  | .faulted fault => .faulted { kind := fault.kind.moved k, pc := fault.pc + k }

/-- A step `k` bytes further on. -/
def Step.moved (k : Nat) (s : Step) : Step := { s with pc := s.pc + k }

/-- The machine with its program counter `k` bytes further on. -/
def Machine.moved (k : Nat) (m : Machine) : Machine := { m with pc := m.pc + k }

/-- A turn `k` bytes further on. -/
def Turn.moved (k : Nat) : Turn → Turn
  | .fellOff => .fellOff
  | .completed i flow after => .completed i flow (after.moved k)
  | .faulted kind after => .faulted (kind.moved k) (after.moved k)

@[simp] theorem FaultKind.moved_zero (kind : FaultKind) : kind.moved 0 = kind := by
  cases kind <;> rfl

@[simp] theorem Outcome.moved_zero (outcome : Outcome) : outcome.moved 0 = outcome := by
  cases outcome <;> simp [Outcome.moved]

@[simp] theorem Step.moved_zero : Step.moved 0 = id := by
  funext s
  simp [Step.moved]

@[simp] theorem Machine.moved_zero (m : Machine) : m.moved 0 = m := by simp [Machine.moved]

@[simp] theorem Turn.moved_zero (t : Turn) : t.moved 0 = t := by cases t <;> simp [Turn.moved]

/-- Only a fault outside the code tells how long the code is. -/
theorem FaultKind.moved_eq {kind : FaultKind} (h : ∀ length, kind ≠ .pcOutOfBounds length)
    (k : Nat) : kind.moved k = kind := by
  cases kind with
  | pcOutOfBounds length => exact absurd rfl (h length)
  | _ => rfl

namespace Machine

/-! ### One turn -/

/-- The next turn reads the byte at an offset: it is the one at the program counter, or it belongs
to the operand behind it. -/
def Fetches (code : Code) (m : Machine) (p : Nat) : Prop :=
  ∃ pos : Nat, m.pc = pos ∧ pos ≤ p ∧ p < (Cursor.instruction { code, pos }).2.pos

section

variable {code code' : Code} {m : Machine} {pos k : Nat}

theorem fetches_iff {i : Instruction} (hpc : m.pc = pos) (hi : InstructionAt code pos i) {p : Nat} :
    Fetches code m p ↔ pos ≤ p ∧ p < pos + i.size := by
  constructor
  · rintro ⟨pos', hpc', hp⟩
    obtain rfl : pos' = pos := Int.ofNat.inj (hpc'.symm.trans hpc)
    rwa [hi.read] at hp
  · intro hp
    exact ⟨pos, hpc, by rwa [hi.read]⟩

theorem fetches_of_unknown {b : UInt8} (hpc : m.pc = pos) (hb : code[pos]? = some b)
    (hop : Opcode.ofByte? b = none) : Fetches code m pos := by
  refine ⟨pos, hpc, Nat.le_refl _, ?_⟩
  rw [Cursor.instruction_of_unknown hb hop]
  exact Nat.lt_succ_self _

/-- No turn reads behind the end. -/
theorem Fetches.lt_size {p : Nat} (h : Fetches code m p) : p < code.size := by
  obtain ⟨pos, -, hle, hlt⟩ := h
  rcases Cursor.instruction_cases { code, pos } with
    ⟨-, e⟩ | ⟨b, hb, -, e⟩ | ⟨op, hb, -, e⟩ | ⟨i, hi, e⟩ <;> rw [e] at hlt
  · exact absurd hle (Nat.not_le_of_lt hlt)
  · exact Nat.lt_of_le_of_lt (Nat.le_of_lt_succ hlt) (Array.getElem?_eq_some_iff.1 hb).1
  · exact Nat.lt_of_le_of_lt (Nat.le_of_lt_succ hlt) (Array.getElem?_eq_some_iff.1 hb).1
  · exact Nat.lt_of_lt_of_le hlt hi.stop_le_size

theorem holdsAt_moved {bs : List UInt8} (h : HoldsAt code pos bs)
    (hbytes : ∀ p, pos ≤ p → p < pos + bs.length → code'[p + k]? = code[p]?) :
    HoldsAt code' (pos + k) bs := by
  induction bs generalizing pos with
  | nil => exact holdsAt_nil _ _
  | cons b bs ih =>
    rw [List.length_cons] at hbytes
    obtain ⟨hb, hrest⟩ := holdsAt_cons.1 h
    refine holdsAt_cons.2 ⟨(hbytes pos (by omega) (by omega)).trans hb, ?_⟩
    rw [Nat.add_right_comm]
    exact ih hrest fun p hle hlt => hbytes p (by omega) (by omega)

theorem behind_moved (m : Machine) (pos k : Nat) (i : Instruction) :
    (m.moved k).behind (pos + k) i = (m.behind pos i).moved k := by
  have e : ((pos + k + i.size : Nat) : Int) = (pos + i.size : Nat) + (k : Nat) := by omega
  simp only [behind, moved, e]

theorem Performs.moved {i : Instruction} {flow : Flow} {after : Machine}
    (h : Performs i m flow after) (k : Nat) : Performs i (m.moved k) flow (after.moved k) := by
  -- A branch goes as far from a place further on.
  have target (offset : Int) :
      m.pc + offset - branchSize + k = (m.pc + k) + offset - branchSize := by omega
  cases h with
  | nop => exact .nop
  | constant hi hs => exact .constant hi hs
  | load hi hv hs => exact .load hi hv hs
  | store hi hl hs => exact .store (m := m.moved k) hi hl hs
  | binary hv hs => exact .binary hv hs
  | negate hs => exact .negate hs
  | branchIf hc hs =>
    simp only [Machine.moved, target]
    exact .branchIf hc hs
  | passIf hc hs => exact .passIf hc hs
  | goto =>
    simp only [Machine.moved, target]
    exact .goto
  | ireturn hs => exact .ireturn hs
  | returnVoid => exact .returnVoid
  | halt => exact .halt

theorem Fails.moved {i : Instruction} {kind : FaultKind} {after : Machine}
    (h : Fails i m kind after) (k : Nat) : Fails i (m.moved k) kind (after.moved k) := by
  cases h with
  | constantFull hi hr => exact .constantFull hi hr
  | loadOutside hi hl => exact .loadOutside hi hl
  | loadFull hi hl hr => exact .loadFull hi hl hr
  | storeOutside hi hd hl => exact .storeOutside hi hd hl
  | underflow hd => exact .underflow hd
  | noResult hv hs => exact .noResult hv hs

/-- **A turn depends on the bytes that it reads.** Where they stand `k` further on, it is the same
turn, unless the code ends before an operand does. -/
theorem turn_moved (hpc : m.pc = pos) (hpos : pos < code.size)
    (hbytes : ∀ p, Fetches code m p → code'[p + k]? = code[p]?)
    (hwhole : ∀ op : Opcode, code[pos]? = some op.byte → pos + op.size ≤ code.size) :
    (m.moved k).turn code' = (m.turn code).moved k := by
  have hpc' : (m.moved k).pc = (pos + k : Nat) := by
    rw [Machine.moved, hpc]
    rfl
  rcases turn_cases code m with ⟨hend, -⟩ | ⟨hout, -⟩ | ⟨pos', hpos', -, ht⟩
  · omega
  · omega
  obtain rfl : pos' = pos := Int.ofNat.inj (hpos'.symm.trans hpc)
  rcases ht with ⟨b, hb, hop, e⟩ | ⟨op, hb, hshort, -⟩ | ⟨i, hi, ht⟩
  · have hb' := (hbytes _ (fetches_of_unknown hpc hb hop)).trans hb
    rw [e, turn_of_unknown hpc' hb' hop]
    rfl
  · exact absurd hshort (Nat.not_lt_of_le (hwhole op hb))
  · have hi' : InstructionAt code' (pos' + k) i := by
      refine ⟨hi.1, holdsAt_moved hi.2 ?_⟩
      intro p hle hlt
      rw [Instruction.length_bytes] at hlt
      exact hbytes p ((fetches_iff hpc hi).2 ⟨hle, hlt⟩)
    rcases ht with ⟨flow, after, hp, e⟩ | ⟨kind, after, hf, e⟩
    · rw [e, turn_of_performs hpc' hi' (behind_moved m pos' k i ▸ hp.moved k)]
      rfl
    · rw [e, turn_of_fails hpc' hi' (behind_moved m pos' k i ▸ hf.moved k), Turn.moved,
        FaultKind.moved_eq]
      rintro length rfl
      exact hf.ofExecution

end

/-! ### Runs -/

/-- **A run further on**: if all turns of a run are the same `k` bytes further on, so is the run. -/
theorem Runs.moved {code code' : Code} {m : Machine} {n k : Nat} {steps : List Step}
    {outcome : Outcome} {stack : OperandStack} (h : Runs code m n steps outcome stack)
    (hturns : ∀ m', Steps code m m' → (m'.moved k).turn code' = (m'.turn code).moved k) :
    Runs code' (m.moved k) n (steps.map (.moved k)) (outcome.moved k) stack := by
  induction h with
  | fellOff ht => exact .fellOff ((hturns _ .refl).trans (congrArg _ ht))
  | @faulted m after kind ht =>
    have ht' : (m.moved k).turn code' = .faulted (kind.moved k) (after.moved k) :=
      (hturns m .refl).trans (congrArg _ ht)
    exact (Runs.faulted ht' :)
  | @stopped m after i completion ht =>
    have ht' : (m.moved k).turn code' = .completed i (.stop completion) (after.moved k) :=
      (hturns m .refl).trans (congrArg _ ht)
    exact (Runs.stopped ht' :)
  | @next m after i turns steps outcome stack ht _ ih =>
    have ht' : (m.moved k).turn code' = .completed i .next (after.moved k) :=
      (hturns m .refl).trans (congrArg _ ht)
    have hr := ih fun m' hm' => hturns m' (.head ⟨i, ht⟩ hm')
    exact (Runs.next ht' hr :)

/-! ### Behind other bytes -/

/-- The machine stands at a branch that is taken, and goes to the target. -/
def BranchesTo (code : Code) (m : Machine) (target : Int) : Prop :=
  ∃ (pos : Nat) (i : Instruction) (offset : Int16), m.pc = pos ∧ InstructionAt code pos i ∧
    i.branchOffset? = some offset ∧ Takes m i ∧ target = pos + offset.toInt

theorem Next.pc_nonneg {code : Code} {m m' : Machine} (h : Next code m m')
    (hb : ∀ target, BranchesTo code m target → 0 ≤ target) : 0 ≤ m'.pc := by
  obtain ⟨i, ht⟩ := h
  obtain ⟨pos, hpc, hi, hp⟩ := turn_eq_completed_iff.1 ht
  rcases hp.pc_cases with hnext | ⟨htakes, offset, ho, htarget⟩
  · omega
  · rw [htarget]
    exact hb _ ⟨pos, i, offset, hpc, hi, ho, htakes, rfl⟩

/-- A run whose branches all go to places that are not in front of the code is never there. -/
theorem Reachable.pc_nonneg {limits : Limits} {code : Code} {m : Machine}
    (h : Reachable limits code m)
    (hb : ∀ m', Reachable limits code m' → ∀ target, BranchesTo code m' target → 0 ≤ target) :
    0 ≤ m.pc := by
  cases h with
  | refl => exact Int.le_refl 0
  | tail hm hnext => exact hnext.pc_nonneg (hb _ hm)

/-- Behind other bytes a turn is the same if it does not stand in front of the code. -/
theorem turn_behind (front : Code) {code : Code} {m : Machine} (hpc : 0 ≤ m.pc) :
    (m.moved front.size).turn (front ++ code) = (m.turn code).moved front.size := by
  have hsize : (front ++ code).size = code.size + front.size := by
    rw [Array.size_append, Nat.add_comm]
  have hbytes (p : Nat) : (front ++ code)[p + front.size]? = code[p]? := by
    rw [Array.getElem?_append_right (Nat.le_add_left ..), Nat.add_sub_cancel]
  have hmoved : (m.moved front.size).pc = m.pc + front.size := rfl
  rcases turn_cases code m with ⟨hend, e⟩ | ⟨hout, e⟩ | ⟨pos, hpos, hlt, ht⟩
  · rw [e, turn_of_eq_size (by omega)]
    rfl
  · rw [e, turn_of_outside (by omega), hsize]
    rfl
  · by_cases hwhole : ∀ op : Opcode, code[pos]? = some op.byte → pos + op.size ≤ code.size
    · exact turn_moved hpos hlt (fun p _ => hbytes p) hwhole
    · -- As many bytes are missing as before.
      simp only [not_forall, Nat.not_le] at hwhole
      obtain ⟨op, hb, hshort⟩ := hwhole
      have hpos' : (m.moved front.size).pc = (pos + front.size : Nat) := by rw [hmoved, hpos]; rfl
      have hshort' : (front ++ code).size < pos + front.size + op.size := by omega
      have havailable : (front ++ code).size - (pos + front.size + 1) = code.size - (pos + 1) := by
        omega
      rw [turn_of_short hpos hb hshort, turn_of_short hpos' ((hbytes pos).trans hb) hshort',
        havailable]
      rfl

/-! ### Behind instructions that do nothing -/

/-- The code with `k` instructions in front of it that do nothing. -/
def behindNops (k : Nat) (code : Code) : Code := Array.replicate k Opcode.nop.byte ++ code

section

variable {code : Code} {m : Machine} {k j : Nat}

theorem instructionAt_nop (h : j < k) : InstructionAt (behindNops k code) j .nop := by
  have hb : (behindNops k code)[j]? = some Opcode.nop.byte := by
    rw [behindNops, Array.getElem?_append_left (by simpa using h), Array.getElem?_replicate,
      if_pos h]
  exact ⟨trivial, holdsAt_cons.2 ⟨hb, holdsAt_nil _ _⟩⟩

theorem turn_nop (hm : m.pc = 0) (h : j < k) :
    (m.moved j).turn (behindNops k code) = .completed .nop .next (m.moved (j + 1)) := by
  have hpc : (m.moved j).pc = j := by simp [Machine.moved, hm]
  have hafter : (m.moved j).behind j .nop = m.moved (j + 1) := by
    simp [behind, Machine.moved, hm, Instruction.size, Instruction.opcode, Opcode.size,
      Opcode.immediate, Immediate.width]
  refine turn_of_performs hpc (instructionAt_nop h) ?_
  rw [hafter]
  exact .nop

/-- A run from behind some of the instructions is one from in front of them, with as many turns
more. -/
theorem Runs.in_front (hm : m.pc = 0) (hj : j ≤ k) {n : Nat} {steps : List Step} {outcome : Outcome}
    {stack : OperandStack} (h : Runs (behindNops k code) (m.moved j) n steps outcome stack) :
    ∃ steps', Runs (behindNops k code) m (j + n) steps' outcome stack := by
  induction j generalizing n steps with
  | zero =>
    rw [moved_zero] at h
    exact ⟨steps, by rwa [Nat.zero_add]⟩
  | succ j ih =>
    rw [Nat.succ_add_eq_add_succ]
    exact ih (Nat.le_of_succ_le hj) (.next (turn_nop hm hj) h)

end

end Machine

open Machine

/-- **Code may be moved.** If an execution of a code ends and no branch that it takes goes to a
place in front of the code, then behind any number of instructions that do nothing it ends in the
same way, with the same stack left behind: it completes alike, or it has the same fault as many
bytes further on. A fault outside the code then tells the length that the code has there. -/
theorem Executor.execute?_behind_nops {limits : Limits} {code : Code} {turns : Nat} {e : Execution}
    (he : (ofLimits limits).execute? turns code = some e)
    (hb : ∀ m, Reachable limits code m → ∀ target, BranchesTo code m target → 0 ≤ target)
    (k : Nat) :
    ∃ e', (ofLimits limits).execute? (k + turns) (Array.replicate k Opcode.nop.byte ++ code) =
        some e' ∧
      e'.outcome = e.outcome.moved k ∧ e'.executor.stack = e.executor.stack := by
  obtain ⟨n, hn, steps, hr⟩ := exists_execute?_iff_runs.1 ⟨e, he, rfl, rfl⟩
  have hturns (m : Machine) (hm : Steps code limits.start m) :
      (m.moved k).turn (behindNops k code) = (m.turn code).moved k := by
    have h : (m.moved (Array.replicate k Opcode.nop.byte).size).turn (behindNops k code) = _ :=
      turn_behind _ (Reachable.pc_nonneg hm hb)
    rwa [Array.size_replicate] at h
  obtain ⟨steps', hr'⟩ := (hr.moved hturns).in_front rfl (Nat.le_refl k)
  exact exists_execute?_iff_runs.2 ⟨k + n, Nat.add_le_add_left hn k, steps', hr'⟩

/-- A branch forth over another one, and a branch back to this one, which leaves the code. -/
theorem Executor.execute?_behind_nops_branch_outside :
    let code : Code := #[0xa7, 0x00, 0x06, 0xa7, 0x00, 0x0a, 0xa7, 0xff, 0xfd]
    (∃ e, (ofLimits ⟨0, 0⟩).execute? 4 code = some e ∧
      e.outcome = .faulted ⟨.pcOutOfBounds 9, 13⟩ ∧ e.executor.stack = .empty 0) ∧
    ∃ e, (ofLimits ⟨0, 0⟩).execute? 6 (#[0x00, 0x00] ++ code) = some e ∧
      e.outcome = .faulted ⟨.pcOutOfBounds 11, 15⟩ ∧ e.executor.stack = .empty 0 := by
  intro code
  let atPc (pc : Int) : Machine := ⟨.empty 0, pc, #[]⟩
  have hover : (atPc 0).turn code = .completed (.goto 6) .next (atPc 6) := by decide
  have hback : (atPc 6).turn code = .completed (.goto (-3)) .next (atPc 3) := by decide
  have hleave : (atPc 3).turn code = .completed (.goto 10) .next (atPc 13) := by decide
  have houtside : (atPc 13).turn code = .faulted (.pcOutOfBounds 9) (atPc 13) := by decide
  have hends : ∃ e, (ofLimits ⟨0, 0⟩).execute? 4 code = some e ∧
      e.outcome = .faulted ⟨.pcOutOfBounds 9, 13⟩ ∧ e.executor.stack = .empty 0 :=
    exists_execute?_iff_runs.2
      ⟨4, Nat.le_refl 4, _, .next hover (.next hback (.next hleave (.faulted houtside)))⟩
  have hforth : ∀ pos < 9,
      ((Cursor.instruction { code, pos }).1.toOption.bind Instruction.branchOffset?).all
        fun offset => decide (0 ≤ (pos : Int) + offset.toInt) := by decide
  have hb (m : Machine) (_ : Reachable ⟨0, 0⟩ code m) (target : Int)
      (h : BranchesTo code m target) : 0 ≤ target := by
    obtain ⟨pos, i, offset, -, hi, ho, -, rfl⟩ := h
    have hall := hforth pos hi.lt_size
    rw [hi.read] at hall
    exact of_decide_eq_true ((Option.all_eq_true _ _).1 hall offset ho)
  obtain ⟨e, he, hfault, hstack⟩ := hends
  obtain ⟨e', he', hfault', hstack'⟩ := execute?_behind_nops he hb 2
  rw [hfault] at hfault'
  exact ⟨⟨e, he, hfault, hstack⟩, e', he', hfault', hstack'.trans hstack⟩

end StackMachine
