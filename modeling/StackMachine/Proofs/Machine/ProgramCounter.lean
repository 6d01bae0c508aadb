import StackMachine.Proofs.Machine.Boundaries
import StackMachine.Proofs.Machine.Trace
import StackMachine.Text.Numeral

/-!
# The program counter

Only a branch that is taken moves the program counter out of the code, and never further than its
offset of 16 bits reaches (`pc_along_run`). So a run that leaves the code does so with a branch, and
ends at the target of this branch with a fault that tells it; and a run that falls off has come to
the end of the code exactly.

An instruction ends inside the code or where the code ends, so behind an instruction the program
counter is not outside it (`Next.pc_cases`). What is left are the targets of branches, and a branch
stands whole inside the code.
-/

namespace StackMachine.Machine

open Text.Numeral (Fits)

variable {limits : Limits} {code : Code} {l : Located} {m m' : Machine}

/-! ### Branches that are taken -/

/-- The turn from `m` to `m'` completes a branch, which is decoded at the program counter, and takes
it. -/
structure TakesBranch (code : Code) (l : Located) (m m' : Machine) : Prop where
  pc : m.pc = l.start
  located : (Cursor.located { code, pos := l.start }).1 = .ok l
  takes : Takes m l.instruction
  turn : m.turn code = .completed l.instruction .next m'

theorem size_of_takes {i : Instruction} (h : Takes m i) : i.size = branchSize := by
  cases i with
  | goto | ifIcmp => rfl
  | _ => cases h

/-- A branch that is taken stands whole inside the code. -/
theorem TakesBranch.instructionAt (h : TakesBranch code l m m') :
    InstructionAt code l.start l.instruction ∧ l.stop = l.start + branchSize ∧
      l.stop ≤ code.size := by
  obtain ⟨hi, -, hstop⟩ := Cursor.of_located_eq_ok h.located
  have hle : l.start + l.instruction.size ≤ code.size := hi.stop_le_size
  rw [size_of_takes h.takes] at hstop hle
  exact ⟨hi, hstop, hstop ▸ hle⟩

/-- A branch that is taken leads from its opcode to the program counter. -/
theorem TakesBranch.target (h : TakesBranch code l m m') :
    ∃ offset, l.instruction.branchOffset? = some offset ∧ m'.pc = l.start + offset.toInt ∧
      l.target? = some m'.pc := by
  obtain ⟨offset, ho⟩ : ∃ offset, l.instruction.branchOffset? = some offset := by
    have htakes := h.takes
    cases hl : l.instruction with
    | goto offset | ifIcmp cond offset => exact ⟨offset, rfl⟩
    | _ => rw [hl] at htakes; cases htakes
  obtain ⟨after, hturn, hpc⟩ := turn_of_takes h.pc h.instructionAt.1 ho h.takes
  cases hturn.symm.trans h.turn
  exact ⟨offset, ho, hpc, by rw [Located.target?, ho, hpc, Option.map_some]⟩

/-- Behind a turn the program counter is inside the code or at its end, or the turn has taken a
branch. -/
theorem Next.pc_cases (h : Next code m m') :
    (0 ≤ m'.pc ∧ m'.pc ≤ code.size) ∨ ∃ l, TakesBranch code l m m' := by
  obtain ⟨i, ht⟩ := h
  obtain ⟨pos, hpc, hi, hp⟩ := turn_eq_completed_iff.1 ht
  rcases hp.pc_cases with hnext | ⟨htakes, -⟩
  · have hle := hi.stop_le_size
    exact .inl (by omega)
  · exact .inr
      ⟨{ instruction := i, start := pos, stop := pos + i.size }, hpc, hi.located, htakes, ht⟩

/-- A run leaves the code only by a branch. -/
theorem Reachable.pc_cases (h : Reachable limits code m) :
    (0 ≤ m.pc ∧ m.pc ≤ code.size) ∨
      ∃ m₀ l, Reachable limits code m₀ ∧ TakesBranch code l m₀ m := by
  cases h with
  | refl => exact .inl ⟨Int.le_refl 0, Int.natCast_nonneg _⟩
  | tail h₀ hnext =>
    rcases hnext.pc_cases with hin | ⟨l, hl⟩
    · exact .inl hin
    · exact .inr ⟨_, l, h₀, hl⟩

/-! ### Ends of runs -/

theorem turn_eq_pcOutOfBounds_iff {length : Nat} {after : Machine} :
    m.turn code = .faulted (.pcOutOfBounds length) after ↔
      (m.pc < 0 ∨ code.size < m.pc) ∧ length = code.size ∧ after = m := by
  constructor
  · intro h
    rcases turn_cases code m with ⟨-, e⟩ | ⟨hout, e⟩ |
      ⟨_, -, -, ⟨_, -, -, e⟩ | ⟨_, -, -, e⟩ | ⟨_, -, ⟨_, _, -, e⟩ | ⟨_, _, hf, e⟩⟩⟩ <;>
      cases e.symm.trans h
    · exact ⟨hout, rfl, rfl⟩
    · exact hf.ofExecution.elim
  · rintro ⟨hout, rfl, rfl⟩
    exact turn_of_outside hout

/-- A run ends outside the code where it is there. -/
theorem ends_pcOutOfBounds_iff {length : Nat} {pc : Int} :
    (∃ stack, Ends code m (.faulted { kind := .pcOutOfBounds length, pc }) stack) ↔
      m.pc = pc ∧ (pc < 0 ∨ code.size < pc) ∧ length = code.size := by
  constructor
  · rintro ⟨stack, h⟩
    cases h with
    | faulted ht =>
      obtain ⟨hout, hlength, -⟩ := turn_eq_pcOutOfBounds_iff.1 ht
      exact ⟨rfl, hout, hlength⟩
  · rintro ⟨rfl, hout, rfl⟩
    exact ⟨_, .faulted (turn_of_outside hout)⟩

/-- A run falls off where it is at the end of the code. -/
theorem ends_fellOff_iff :
    (∃ completion stack, Ends code m (.completed completion) stack ∧
      completion.termination = .fellOff) ↔ m.pc = code.size := by
  constructor
  · rintro ⟨completion, stack, h, hoff⟩
    cases h with
    | fellOff ht => exact pc_of_fellOff ht
    | stopped ht =>
      obtain ⟨_, -, -, hp⟩ := turn_eq_completed_iff.1 ht
      exact absurd hoff hp.termination
  · intro h
    exact ⟨_, _, .fellOff (turn_of_eq_size h), rfl⟩

/-! ### The whole run -/

/-- A branch that stands inside a code goes no further than its offset reaches, and what it adds up
on the way is a number of 64 bits. -/
theorem TakesBranch.bounds (h : TakesBranch code l m m') :
    (-32768 ≤ m'.pc ∧ m'.pc ≤ code.size + 32764) ∧
      (code.size ≤ 2 ^ 63 - 1 - 32767 → ∀ offset, l.instruction.branchOffset? = some offset →
        m'.pc = l.stop + offset.toInt - branchSize ∧ Fits l.stop ∧ Fits (l.stop + offset.toInt) ∧
          Fits (l.stop + offset.toInt - branchSize)) := by
  obtain ⟨offset, ho, hpc, -⟩ := h.target
  obtain ⟨-, hstop, hle⟩ := h.instructionAt
  have hlow := offset.le_toInt
  have hhigh := offset.toInt_lt
  simp only [branchSize] at hstop ⊢
  refine ⟨⟨by omega, by omega⟩, ?_⟩
  intro hsize offset' ho'
  obtain rfl : offset = offset' := Option.some.inj (ho.symm.trans ho')
  unfold Fits
  omega

/-- **The program counter along a run.** In front of every turn it is inside the code or at its end,
or the turn before has taken a branch, and then it is the target of this branch, which stands whole
inside the code. So it is never further outside than an offset of 16 bits reaches, and in a code of
any length that there can be, moving it to a target takes no number of more than 64 bits.

A run leaves the code exactly when it takes a branch to a target outside, and the fault tells this
target and the length of the code. A run falls off exactly when it comes to the end of the code. -/
theorem pc_along_run (limits : Limits) (code : Code) :
    (∀ m, Reachable limits code m →
      (0 ≤ m.pc ∧ m.pc ≤ code.size ∨
        ∃ m₀ l offset, Reachable limits code m₀ ∧ TakesBranch code l m₀ m ∧
          l.start + 3 ≤ code.size ∧ l.instruction.branchOffset? = some offset ∧
          m.pc = l.start + offset.toInt ∧ l.target? = some m.pc) ∧
      -32768 ≤ m.pc ∧ m.pc ≤ code.size + 32764) ∧
    (code.size ≤ 2 ^ 63 - 1 - 32767 →
      ∀ m₀ l m, TakesBranch code l m₀ m → ∀ offset, l.instruction.branchOffset? = some offset →
        m.pc = l.stop + offset.toInt - branchSize ∧ Fits l.stop ∧ Fits (l.stop + offset.toInt) ∧
          Fits (l.stop + offset.toInt - branchSize)) ∧
    (∀ length pc,
      (∃ turns e, (Executor.ofLimits limits).execute? turns code = some e ∧
        e.outcome = .faulted { kind := .pcOutOfBounds length, pc }) ↔
      length = code.size ∧ (pc < 0 ∨ code.size < pc) ∧
        ∃ m₀ l m, Reachable limits code m₀ ∧ TakesBranch code l m₀ m ∧ l.target? = some pc) ∧
    ((∃ turns e, (Executor.ofLimits limits).execute? turns code = some e ∧
        ∃ completion, e.outcome = .completed completion ∧ completion.termination = .fellOff) ↔
      ∃ m, Reachable limits code m ∧ m.pc = code.size) := by
  refine ⟨?_, fun hsize m₀ l m h => h.bounds.2 hsize, ?_, ?_⟩
  · intro m hm
    rcases hm.pc_cases with hin | ⟨m₀, l, h₀, h⟩
    · exact ⟨.inl hin, by omega⟩
    · obtain ⟨offset, ho, hpc, htarget⟩ := h.target
      obtain ⟨-, hstop, hle⟩ := h.instructionAt
      exact ⟨.inr ⟨m₀, l, offset, h₀, h, hstop ▸ hle, ho, hpc, htarget⟩, h.bounds.1⟩
  · intro length pc
    constructor
    · rintro ⟨turns, e, he, hfault⟩
      obtain ⟨m, hm, hends⟩ :=
        Executor.exists_execute?_iff_ends.1 ⟨turns, e, he, hfault, rfl⟩
      obtain ⟨rfl, hout, hlength⟩ := ends_pcOutOfBounds_iff.1 ⟨_, hends⟩
      refine ⟨hlength, hout, ?_⟩
      rcases hm.pc_cases with hin | ⟨m₀, l, h₀, h⟩
      · omega
      · obtain ⟨-, -, -, htarget⟩ := h.target
        exact ⟨m₀, l, m, h₀, h, htarget⟩
    · rintro ⟨hlength, hout, m₀, l, m, h₀, h, htarget⟩
      obtain ⟨-, -, -, htarget'⟩ := h.target
      have hpc : m.pc = pc := Option.some.inj (htarget'.symm.trans htarget)
      obtain ⟨stack, hends⟩ := ends_pcOutOfBounds_iff.2 ⟨hpc, hout, hlength⟩
      obtain ⟨turns, e, he, hfault, -⟩ :=
        Executor.exists_execute?_iff_ends.2 ⟨m, h₀.tail ⟨_, h.turn⟩, hends⟩
      exact ⟨turns, e, he, hfault⟩
  · constructor
    · rintro ⟨turns, e, he, completion, hc, hoff⟩
      obtain ⟨m, hm, hends⟩ := Executor.exists_execute?_iff_ends.1 ⟨turns, e, he, hc, rfl⟩
      exact ⟨m, hm, ends_fellOff_iff.1 ⟨completion, _, hends, hoff⟩⟩
    · rintro ⟨m, hm, hpc⟩
      obtain ⟨completion, stack, hends, hoff⟩ := ends_fellOff_iff.2 hpc
      obtain ⟨turns, e, he, hc, -⟩ := Executor.exists_execute?_iff_ends.2 ⟨m, hm, hends⟩
      exact ⟨turns, e, he, completion, hc, hoff⟩

/-- A branch to the place in front of the first byte, taken from the second one. -/
theorem pc_along_run_in_front :
    let code : Code := #[0x00, 0xa7, 0xff, 0xfe]
    (∃ m, Reachable ⟨0, 0⟩ code m ∧ m.pc = -1) ∧
      ∃ turns e, (Executor.ofLimits ⟨0, 0⟩).execute? turns code = some e ∧
        e.outcome = .faulted ⟨.pcOutOfBounds 4, -1⟩ := by
  intro code
  have hnop : Reachable ⟨0, 0⟩ code ⟨.empty 0, 1, #[]⟩ := .single ⟨.nop, by decide⟩
  have hbranch : TakesBranch code ⟨.goto (-2), 1, 4⟩ ⟨.empty 0, 1, #[]⟩ ⟨.empty 0, -1, #[]⟩ :=
    ⟨rfl, rfl, trivial, by decide⟩
  refine ⟨⟨_, hnop.tail ⟨_, hbranch.turn⟩, rfl⟩, ?_⟩
  exact ((pc_along_run ⟨0, 0⟩ code).2.2.1 4 (-1)).2
    ⟨rfl, .inl (by decide), _, _, _, hnop, hbranch, rfl⟩

end StackMachine.Machine
