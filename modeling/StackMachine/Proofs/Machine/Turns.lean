import StackMachine.Machine.Run
import StackMachine.Proofs.Instruction.Decoding
import StackMachine.Proofs.Machine.Operations
import Mathlib.Logic.Relation

/-!
# Turns and runs

`Machine.turn_cases` lists the ways in which a turn can go, over the bytes of the code and the
rules of the instructions. A run is a sequence of turns (`Steps`) with an end (`Ends`), whatever
number of turns it was given (`exists_run_iff`), so that what one turn keeps holds of all that a
run reaches.
-/

namespace StackMachine

namespace Machine

open Relation

/-! ### One turn -/

/-- The machine in front of an instruction at some position, moved behind it. -/
def behind (m : Machine) (pos : Nat) (i : Instruction) : Machine :=
  { m with pc := (pos + i.size : Nat) }

/-- Inside the code a turn is decided by what is read at the program counter. -/
theorem turn_of_lt {code : Code} {m : Machine} {pos : Nat} (hpc : m.pc = pos)
    (hlt : pos < code.size) :
    m.turn code =
      match Cursor.instruction { code, pos } with
      | (.error e, _) => .faulted (.ofDecodeError code.size e) m
      | (.ok i, c) =>
        match execute i { m with pc := c.pos } with
        | .ok flow after => .completed i flow after
        | .error kind after => .faulted kind after := by
  have hend : ¬ m.atEnd code := by
    simp only [atEnd, beq_iff_eq, hpc]
    omega
  have hpos : m.fetchPosition? code = some pos := by
    unfold fetchPosition?
    rw [if_pos (by omega)]
    simp [hpc]
  refine (if_neg hend).trans ?_
  generalize m.fetchPosition? code = position at hpos ⊢
  cases hpos
  rfl

theorem turn_of_unknown {code : Code} {m : Machine} {pos : Nat} {b : UInt8} (hpc : m.pc = pos)
    (hb : code[pos]? = some b) (hop : Opcode.ofByte? b = none) :
    m.turn code = .faulted (.unknownOpcode b) m := by
  rw [turn_of_lt hpc (Array.getElem?_eq_some_iff.1 hb).1, Cursor.instruction_of_unknown hb hop]
  rfl

theorem turn_of_short {code : Code} {m : Machine} {pos : Nat} {op : Opcode} (hpc : m.pc = pos)
    (hb : code[pos]? = some op.byte) (h : code.size < pos + op.size) :
    m.turn code =
      .faulted (.truncatedOperand op op.immediate.width (code.size - (pos + 1))) m := by
  rw [turn_of_lt hpc (Array.getElem?_eq_some_iff.1 hb).1, Cursor.instruction_of_short hb h]
  rfl

theorem turn_of_performs {code : Code} {m after : Machine} {pos : Nat} {i : Instruction}
    {flow : Flow} (hpc : m.pc = pos) (hi : InstructionAt code pos i)
    (h : Performs i (m.behind pos i) flow after) : m.turn code = .completed i flow after := by
  have he : execute i { m with pc := (pos + i.size : Nat) } = .ok flow after :=
    execute_of_performs h
  simp only [turn_of_lt hpc hi.lt_size, hi.read, he]

theorem turn_of_fails {code : Code} {m after : Machine} {pos : Nat} {i : Instruction}
    {kind : FaultKind} (hpc : m.pc = pos) (hi : InstructionAt code pos i)
    (h : Fails i (m.behind pos i) kind after) : m.turn code = .faulted kind after := by
  have he : execute i { m with pc := (pos + i.size : Nat) } = .error kind after :=
    execute_of_fails h
  simp only [turn_of_lt hpc hi.lt_size, hi.read, he]

theorem turn_of_eq_size {code : Code} {m : Machine} (h : m.pc = code.size) :
    m.turn code = .fellOff :=
  if_pos (beq_iff_eq.2 h)

theorem turn_of_outside {code : Code} {m : Machine} (h : m.pc < 0 ∨ code.size < m.pc) :
    m.turn code = .faulted (.pcOutOfBounds code.size) m := by
  have hend : ¬ m.pc = code.size := by omega
  have hin : ¬ (0 ≤ m.pc ∧ m.pc < code.size) := by omega
  unfold turn fetchPosition?
  simp only [atEnd, beq_iff_eq, hend, if_false, hin]

/-- **The ways of a turn**: it is at the end of the code, or outside it, or at a position of it at
which an instruction is carried out or fails, or where there is none. -/
theorem turn_cases (code : Code) (m : Machine) :
    (m.pc = code.size ∧ m.turn code = .fellOff) ∨
    ((m.pc < 0 ∨ code.size < m.pc) ∧ m.turn code = .faulted (.pcOutOfBounds code.size) m) ∨
    ∃ pos : Nat, m.pc = pos ∧ pos < code.size ∧
      ((∃ b, code[pos]? = some b ∧ Opcode.ofByte? b = none ∧
          m.turn code = .faulted (.unknownOpcode b) m) ∨
        (∃ op : Opcode, code[pos]? = some op.byte ∧ code.size < pos + op.size ∧
          m.turn code =
            .faulted (.truncatedOperand op op.immediate.width (code.size - (pos + 1))) m) ∨
        ∃ i, InstructionAt code pos i ∧
          ((∃ flow after, Performs i (m.behind pos i) flow after ∧
              m.turn code = .completed i flow after) ∨
            ∃ kind after, Fails i (m.behind pos i) kind after ∧
              m.turn code = .faulted kind after)) := by
  by_cases hend : m.pc = code.size
  · exact .inl ⟨hend, turn_of_eq_size hend⟩
  by_cases hin : 0 ≤ m.pc ∧ m.pc < code.size
  · obtain ⟨pos, hpc⟩ := Int.eq_ofNat_of_zero_le hin.1
    have hlt : pos < code.size := by omega
    refine .inr (.inr ⟨pos, hpc, hlt, ?_⟩)
    rcases Cursor.instruction_cases { code, pos } with
      ⟨hle, -⟩ | ⟨b, hb, hop, -⟩ | ⟨op, hb, hshort, -⟩ | ⟨i, hi, -⟩
    · exact absurd hlt (Nat.not_lt_of_le hle)
    · exact .inl ⟨b, hb, hop, turn_of_unknown hpc hb hop⟩
    · exact .inr (.inl ⟨op, hb, hshort, turn_of_short hpc hb hshort⟩)
    · refine .inr (.inr ⟨i, hi, ?_⟩)
      rcases goes i (m.behind pos i) with ⟨flow, after, h⟩ | ⟨kind, after, h⟩
      · exact .inl ⟨flow, after, h, turn_of_performs hpc hi h⟩
      · exact .inr ⟨kind, after, h, turn_of_fails hpc hi h⟩
  · have hout : m.pc < 0 ∨ code.size < m.pc := by omega
    exact .inr (.inl ⟨hout, turn_of_outside hout⟩)

/-- An instruction is completed exactly where it stands and a rule carries it out. -/
theorem turn_eq_completed_iff {code : Code} {m after : Machine} {i : Instruction} {flow : Flow} :
    m.turn code = .completed i flow after ↔
      ∃ pos : Nat, m.pc = pos ∧ InstructionAt code pos i ∧
        Performs i (m.behind pos i) flow after := by
  constructor
  · intro h
    rcases turn_cases code m with ⟨-, e⟩ | ⟨-, e⟩ |
      ⟨pos, hpc, -, ⟨b, -, -, e⟩ | ⟨op, -, -, e⟩ |
        ⟨j, hj, ⟨flow', after', hp, e⟩ | ⟨_, _, -, e⟩⟩⟩ <;>
      cases e.symm.trans h
    exact ⟨pos, hpc, hj, hp⟩
  · rintro ⟨pos, hpc, hi, hp⟩
    exact turn_of_performs hpc hi hp

/-- A turn that faults leaves the machine as it was, or an instruction has failed. -/
theorem failed_of_turn {code : Code} {m after : Machine} {kind : FaultKind}
    (h : m.turn code = .faulted kind after) :
    after = m ∨ ∃ pos i, InstructionAt code pos i ∧ Fails i (m.behind pos i) kind after := by
  rcases turn_cases code m with ⟨-, e⟩ | ⟨-, e⟩ |
    ⟨pos, -, -, ⟨b, -, -, e⟩ | ⟨op, -, -, e⟩ | ⟨i, hi, ⟨_, _, -, e⟩ | ⟨_, _, hf, e⟩⟩⟩ <;>
    cases e.symm.trans h
  · exact .inl rfl
  · exact .inl rfl
  · exact .inl rfl
  · exact .inr ⟨pos, i, hi, hf⟩

/-! ### Runs -/

/-- A turn completes an instruction, and the run goes on. -/
def Next (code : Code) (m m' : Machine) : Prop := ∃ i, m.turn code = .completed i .next m'

/-- Any number of turns, after each of which the run goes on. -/
def Steps (code : Code) : Machine → Machine → Prop := ReflTransGen (Next code)

/-- The next turn ends the run, with an outcome and a stack that is left behind. -/
inductive Ends (code : Code) (m : Machine) : Outcome → OperandStack → Prop
  /-- The end of the code has been reached. -/
  | fellOff (h : m.turn code = .fellOff) :
      Ends code m (.completed { value := 0, termination := .fellOff }) m.stack
  /-- The turn faults, at its program counter. -/
  | faulted {kind : FaultKind} {after : Machine} (h : m.turn code = .faulted kind after) :
      Ends code m (.faulted { kind, pc := m.pc }) after.stack
  /-- The instruction ends the run. -/
  | stopped {i : Instruction} {completion : Completion} {after : Machine}
      (h : m.turn code = .completed i (.stop completion) after) :
      Ends code m (.completed completion) after.stack

theorem steps_of_run {logged : Bool} {code : Code} {turns : Nat} {m : Machine} {log : Array Step}
    {ending : Ending} (h : m.run logged code turns log = some ending) :
    ∃ last, Steps code m last ∧ Ends code last ending.outcome ending.stack := by
  induction turns generalizing m log with
  | zero => cases h
  | succ turns ih =>
    unfold run at h
    split at h
    · next ht =>
      cases h
      exact ⟨m, .refl, .fellOff ht⟩
    · next kind after ht =>
      cases h
      exact ⟨m, .refl, .faulted ht⟩
    · next i flow after ht =>
      cases flow with
      | next =>
        obtain ⟨last, hsteps, hends⟩ := ih h
        exact ⟨last, .head ⟨i, ht⟩ hsteps, hends⟩
      | stop completion =>
        cases h
        exact ⟨m, .refl, .stopped ht⟩

theorem run_of_ends {logged : Bool} {code : Code} {m : Machine} {outcome : Outcome}
    {stack : OperandStack} (h : Ends code m outcome stack) (turns : Nat) (log : Array Step) :
    ∃ log', m.run logged code (turns + 1) log = some { outcome, stack, log := log' } := by
  unfold run
  cases h with
  | fellOff ht | faulted ht | stopped ht => exact ⟨_, by rw [ht]⟩

/-- **A run is its turns**: with enough of them it ends as the first turn that does not go on
says. -/
theorem exists_run_iff {logged : Bool} {code : Code} {m : Machine} {log : Array Step}
    {outcome : Outcome} {stack : OperandStack} :
    (∃ turns log', m.run logged code turns log = some { outcome, stack, log := log' }) ↔
      ∃ last, Steps code m last ∧ Ends code last outcome stack := by
  constructor
  · rintro ⟨turns, log', h⟩
    exact steps_of_run h
  · rintro ⟨last, hsteps, hends⟩
    induction hsteps using ReflTransGen.head_induction_on generalizing log with
    | refl => exact ⟨1, run_of_ends hends 0 log⟩
    | @head m m' hnext _ ih =>
      obtain ⟨i, ht⟩ := hnext
      obtain ⟨turns, log', h⟩ := @ih (if logged then log.push ⟨m.pc, i, m'.stack⟩ else log)
      refine ⟨turns + 1, log', ?_⟩
      unfold run
      rw [ht]
      exact h

/-! ### Reachable machines -/

end Machine

/-- The machine at the start of a run under some limits. -/
def Limits.start (limits : Limits) : Machine :=
  .start (.empty limits.stackCapacity) limits.localsCapacity

namespace Machine

/-- A run under some limits comes to the machine. -/
def Reachable (limits : Limits) (code : Code) (m : Machine) : Prop := Steps code limits.start m

/-- The stack and the local variables are as large as the limits say. -/
structure Within (limits : Limits) (m : Machine) : Prop where
  capacity : m.stack.capacity = limits.stackCapacity
  locals : m.locals.size = min limits.localsCapacity addressableLocals

theorem Performs.capacity {i : Instruction} {m after : Machine} {flow : Flow}
    (h : Performs i m flow after) : after.stack.capacity = m.stack.capacity := by
  cases h with
  | nop | goto | returnVoid | halt => rfl
  | constant _ hs | load _ _ hs | store _ _ hs | binary _ hs | branchIf _ hs | passIf _ hs
  | ireturn hs =>
    simp only [OperandStack.capacity, OperandStack.depth, hs, List.length_cons]
    omega
  | negate hs => simp only [OperandStack.capacity, OperandStack.depth, hs, List.length_cons]

theorem Fails.capacity {i : Instruction} {m after : Machine} {kind : FaultKind}
    (h : Fails i m kind after) : after.stack.capacity = m.stack.capacity := by
  cases h with
  | constantFull | loadOutside | loadFull => rfl
  | storeOutside | underflow | noResult => exact OperandStack.capacity_drop _ _

/-- However a run ends, the stack that it leaves behind can hold as much as before. -/
theorem Ends.capacity {code : Code} {m : Machine} {outcome : Outcome} {stack : OperandStack}
    (h : Ends code m outcome stack) : stack.capacity = m.stack.capacity := by
  cases h with
  | fellOff => rfl
  | faulted ht =>
    rcases failed_of_turn ht with rfl | ⟨pos, i, -, hf⟩
    · rfl
    · exact hf.capacity
  | stopped ht =>
    obtain ⟨pos, -, -, hp⟩ := turn_eq_completed_iff.1 ht
    exact hp.capacity

theorem Performs.locals_size {i : Instruction} {m after : Machine} {flow : Flow}
    (h : Performs i m flow after) : after.locals.size = m.locals.size := by
  cases h with
  | store => simp
  | _ => rfl

theorem Within.behind {limits : Limits} {m : Machine} (h : Within limits m) (pos : Nat)
    (i : Instruction) : Within limits (m.behind pos i) :=
  ⟨h.capacity, h.locals⟩

theorem Performs.within {limits : Limits} {i : Instruction} {m after : Machine} {flow : Flow}
    (h : Performs i m flow after) (hm : Within limits m) : Within limits after :=
  ⟨h.capacity.trans hm.capacity, h.locals_size.trans hm.locals⟩

theorem Next.within {limits : Limits} {code : Code} {m m' : Machine} (h : Next code m m')
    (hm : Within limits m) : Within limits m' := by
  obtain ⟨i, ht⟩ := h
  obtain ⟨pos, -, -, hp⟩ := turn_eq_completed_iff.1 ht
  exact hp.within (hm.behind pos i)

theorem within_start (limits : Limits) : Within limits limits.start where
  capacity := OperandStack.capacity_empty _
  locals := Array.size_replicate

/-- No turn changes the sizes. -/
theorem Reachable.within {limits : Limits} {code : Code} {m : Machine}
    (h : Reachable limits code m) : Within limits m := by
  induction h with
  | refl => exact within_start limits
  | tail _ hnext ih => exact hnext.within ih

end Machine

end StackMachine
