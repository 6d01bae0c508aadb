import StackMachine.Proofs.Machine.Relocation

/-!
# What a run depends on

A run depends on no more of its code than the bytes that it reads, from the opcode of its first
instruction to the last byte of the instruction that ends it (`Executor.execute?_of_fetched`). What
stands elsewhere may be anything, and so may be the length of the code, unless it is the end of the
code that the run comes to (`Outcome.EndsInside`).

All machines of a run have the end of the run before them (`Machine.Runs.of_steps`). So none of them
is at the end of the code or outside it if the run does not end there, and its turn is decided by
the bytes that it reads (`Machine.turn_moved`).
-/

namespace StackMachine

/-- The end of the run has nothing to do with the end of the code: the run returned or was stopped,
or there was a fault that is not for want of code. -/
def Outcome.EndsInside : Outcome → Prop
  | .completed completion => completion.termination ≠ .fellOff
  | .faulted fault =>
    (∀ op needed available, fault.kind ≠ .truncatedOperand op needed available) ∧
      ∀ length, fault.kind ≠ .pcOutOfBounds length

namespace Machine

variable {code : Code} {m m' : Machine} {n : Nat} {steps : List Step} {outcome : Outcome}
  {stack : OperandStack}

/-- A run ends as it does from each machine that it comes to. -/
theorem Runs.of_steps (h : Runs code m n steps outcome stack) (hm : Steps code m m') :
    ∃ n' steps', Runs code m' n' steps' outcome stack := by
  induction hm with
  | refl => exact ⟨n, steps, h⟩
  | tail _ hnext ih =>
    obtain ⟨n', steps', h'⟩ := ih
    obtain ⟨i, ht⟩ := hnext
    cases h' with
    | next ht' hr =>
      cases ht.symm.trans ht'
      exact ⟨_, _, hr⟩
    | fellOff ht' | faulted ht' | stopped ht' => cases ht.symm.trans ht'

theorem Runs.outcome_of_fellOff (h : Runs code m n steps outcome stack)
    (ht : m.turn code = .fellOff) :
    outcome = .completed { value := 0, termination := .fellOff } := by
  cases h with
  | fellOff => rfl
  | faulted ht' | stopped ht' | next ht' => cases ht.symm.trans ht'

theorem Runs.outcome_of_faulted {kind : FaultKind} {after : Machine}
    (h : Runs code m n steps outcome stack) (ht : m.turn code = .faulted kind after) :
    outcome = .faulted { kind, pc := m.pc } := by
  cases h with
  | faulted ht' =>
    cases ht.symm.trans ht'
    rfl
  | fellOff ht' | stopped ht' | next ht' => cases ht.symm.trans ht'

/-- **A run depends on the bytes that it reads**: with another code that has the same bytes there it
is the same run, unless it ends where the code does. -/
theorem Runs.of_fetched {code' : Code} (h : Runs code m n steps outcome stack)
    (hend : outcome.EndsInside)
    (hbytes : ∀ m', Steps code m m' → ∀ p, Fetches code m' p → code'[p]? = code[p]?) :
    Runs code' m n steps outcome stack := by
  have hturns (m' : Machine) (hm' : Steps code m m') :
      (m'.moved 0).turn code' = (m'.turn code).moved 0 := by
    obtain ⟨n', steps', h'⟩ := h.of_steps hm'
    rcases turn_cases code m' with ⟨-, e⟩ | ⟨-, e⟩ | ⟨pos, hpc, hpos, -⟩
    · cases h'.outcome_of_fellOff e
      exact absurd rfl hend
    · cases h'.outcome_of_faulted e
      exact absurd rfl (hend.2 _)
    · refine turn_moved hpc hpos (hbytes m' hm') ?_
      intro op hb
      by_contra hshort
      cases h'.outcome_of_faulted (turn_of_short hpc hb (Nat.lt_of_not_le hshort))
      exact hend.1 _ _ _ rfl
  simpa using h.moved hturns

end Machine

open Machine

/-- **An execution depends on the bytes that it reads.** If an execution of a code ends with a
return or a stop, or with a fault that is not for want of code, then an execution of another code
that has the same bytes wherever it reads, the byte or the instruction at fault included, ends in
the same way and leaves the same stack behind. So it does with anything behind the code. -/
theorem Executor.execute?_of_fetched {limits : Limits} {code : Code} {turns : Nat} {e : Execution}
    (he : (ofLimits limits).execute? turns code = some e) (hend : e.outcome.EndsInside) :
    (∀ code' : Code,
      (∀ m, Reachable limits code m → ∀ p, Fetches code m p → code'[p]? = code[p]?) →
      ∃ e', (ofLimits limits).execute? turns code' = some e' ∧ e'.outcome = e.outcome ∧
        e'.executor.stack = e.executor.stack) ∧
    ∀ rest : Code, ∃ e', (ofLimits limits).execute? turns (code ++ rest) = some e' ∧
      e'.outcome = e.outcome ∧ e'.executor.stack = e.executor.stack := by
  obtain ⟨n, hn, steps, hr⟩ := exists_execute?_iff_runs.1 ⟨e, he, rfl, rfl⟩
  have hsame (code' : Code)
      (h : ∀ m, Reachable limits code m → ∀ p, Fetches code m p → code'[p]? = code[p]?) :
      ∃ e', (ofLimits limits).execute? turns code' = some e' ∧ e'.outcome = e.outcome ∧
        e'.executor.stack = e.executor.stack :=
    exists_execute?_iff_runs.2 ⟨n, hn, steps, hr.of_fetched hend h⟩
  refine ⟨hsame, ?_⟩
  intro rest
  refine hsame _ ?_
  intro m _ p hp
  exact Array.getElem?_append_left hp.lt_size

/-- Over a branch that goes over two bytes, these may be anything, and there may be a byte behind
the end. -/
theorem Executor.execute?_of_fetched_branch_over :
    let code : Code := #[0xa7, 0x00, 0x05, 0x00, 0x00, 0x04, 0xac]
    let code' : Code := #[0xa7, 0x00, 0x05, 0xff, 0x11, 0x04, 0xac, 0x11]
    (∃ e, (ofLimits ⟨1, 0⟩).execute? 3 code = some e ∧
      e.outcome = .completed ⟨1, .returned⟩ ∧ e.executor.stack = .empty 1) ∧
    ∃ e, (ofLimits ⟨1, 0⟩).execute? 3 code' = some e ∧
      e.outcome = .completed ⟨1, .returned⟩ ∧ e.executor.stack = .empty 1 := by
  intro code code'
  have hbranch : turn code ⟨⟨[], 1⟩, 0, #[]⟩ = .completed (.goto 5) .next ⟨⟨[], 1⟩, 5, #[]⟩ := by
    decide
  have hconstant : turn code ⟨⟨[], 1⟩, 5, #[]⟩ =
      .completed (.iconst 1) .next ⟨⟨[1], 0⟩, 6, #[]⟩ := by decide
  have hstop : turn code ⟨⟨[1], 0⟩, 6, #[]⟩ =
      .completed .ireturn (.stop ⟨1, .returned⟩) ⟨⟨[], 1⟩, 7, #[]⟩ := by decide
  have hends : ∃ e, (ofLimits ⟨1, 0⟩).execute? 3 code = some e ∧
      e.outcome = .completed ⟨1, .returned⟩ ∧ e.executor.stack = .empty 1 :=
    exists_execute?_iff_runs.2
      ⟨3, Nat.le_refl 3, _, .next hbranch (.next hconstant (.stopped hstop))⟩
  have hreach (m : Machine) (hm : Reachable ⟨1, 0⟩ code m) :
      m = ⟨⟨[], 1⟩, 0, #[]⟩ ∨ m = ⟨⟨[], 1⟩, 5, #[]⟩ ∨ m = ⟨⟨[1], 0⟩, 6, #[]⟩ := by
    induction hm with
    | refl => exact .inl rfl
    | tail _ hnext ih =>
      obtain ⟨i, ht⟩ := hnext
      rcases ih with rfl | rfl | rfl
      · cases hbranch.symm.trans ht
        exact .inr (.inl rfl)
      · cases hconstant.symm.trans ht
        exact .inr (.inr rfl)
      · cases hstop.symm.trans ht
  have hbytes (m : Machine) (hm : Reachable ⟨1, 0⟩ code m) (p : Nat) (hp : Fetches code m p) :
      code'[p]? = code[p]? := by
    have hsame : ∀ p < 7, p < 3 ∨ 5 ≤ p → code'[p]? = code[p]? := by decide
    refine hsame p hp.lt_size ?_
    rcases hreach m hm with rfl | rfl | rfl
    · exact .inl ((fetches_iff rfl (show InstructionAt code 0 (.goto 5) by decide)).1 hp).2
    all_goals
      obtain ⟨pos, hpos, hle, -⟩ := hp
      dsimp only at hpos
      omega
  obtain ⟨e, he, hreturn, hstack⟩ := hends
  obtain ⟨e', he', hreturn', hstack'⟩ :=
    (execute?_of_fetched he (hreturn ▸ nofun)).1 code' hbytes
  exact ⟨⟨e, he, hreturn, hstack⟩, e', he', hreturn'.trans hreturn, hstack'.trans hstack⟩

end StackMachine
