import StackMachine.Proofs.Machine.Leftovers
import StackMachine.Proofs.Machine.Log

/-!
# What local variables hold

A local variable holds the value that was last popped into it, and zero as long as there was none
(`Machine.Past.lastStored`). Neither the code nor the machine tells which instruction was the last
one to store, since a loop comes to the same instruction with other values. So the past of a machine
is kept beside it, as the list of the instructions that were completed on the way (`Machine.Past`),
each with the machine in front of it and the machine behind it.

An instruction in its short form has the same `Instruction.stored?` or `Instruction.loaded?` as the
long one, and what is said of these is said of both.
-/

namespace StackMachine

namespace Instruction

theorem stored?_eq_none_of_constant? {i : Instruction} {v : Value} (h : i.constant? = some v) :
    i.stored? = none := by
  cases i <;> first | rfl | cases h

theorem stored?_eq_none_of_loaded? {i : Instruction} {index : UInt8} (h : i.loaded? = some index) :
    i.stored? = none := by
  cases i <;> first | rfl | cases h

theorem loaded?_eq_none_of_constant? {i : Instruction} {v : Value} (h : i.constant? = some v) :
    i.loaded? = none := by
  cases i <;> first | rfl | cases h

end Instruction

namespace Machine

variable {code : Code} {m m₀ after : Machine} {i : Instruction} {flow : Flow} {index : UInt8}

/-! ### One instruction -/

/-- An instruction that does not store changes no local variable. -/
theorem Performs.locals_of_stored?_eq_none (h : Performs i m flow after) (hi : i.stored? = none) :
    after.locals = m.locals := by
  cases h with
  | store hs => cases hi.symm.trans hs
  | _ => rfl

/-- An instruction that stores pops the value that it stores, and changes no other local
variable. -/
theorem Performs.locals_of_stored? (h : Performs i m flow after) (hi : i.stored? = some index) :
    ∃ v, m.stack.values = v :: after.stack.values ∧ index.toNat < m.locals.size ∧
      ∀ k, after.locals[k]? = if index.toNat = k then some v else m.locals[k]? := by
  cases h with
  | store hs hl hm =>
    cases hi.symm.trans hs
    refine ⟨_, congrArg OperandStack.values hm, hl, ?_⟩
    intro k
    exact Array.getElem?_set hl
  | constant hc => cases hi.symm.trans (Instruction.stored?_eq_none_of_constant? hc)
  | load hl => cases hi.symm.trans (Instruction.stored?_eq_none_of_loaded? hl)
  | _ => cases hi

/-- An instruction that loads pushes what the local variable holds. -/
theorem Performs.values_of_loaded? (h : Performs i m flow after) (hi : i.loaded? = some index) :
    ∃ v, m.locals[index.toNat]? = some v ∧ after.stack.values = v :: m.stack.values := by
  cases h with
  | load hl hv hm =>
    cases hi.symm.trans hl
    exact ⟨_, hv, congrArg (_ :: ·) (congrArg OperandStack.values hm).symm⟩
  | constant hc => cases hi.symm.trans (Instruction.loaded?_eq_none_of_constant? hc)
  | store hs => cases hs.symm.trans (Instruction.stored?_eq_none_of_loaded? hi)
  | _ => cases hi

/-! ### The past of a machine -/

/-- A completed instruction, with the machine in front of it and the machine behind it. -/
structure Passage where
  before : Machine
  instruction : Instruction
  after : Machine

/-- The instructions that a run completes from a machine to another one, the latest first. -/
inductive Past (code : Code) (m₀ : Machine) : List Passage → Machine → Prop
  /-- Nothing has been completed yet. -/
  | start : Past code m₀ [] m₀
  /-- One more turn completes an instruction, and the run goes on. -/
  | turn {past : List Passage} {m after : Machine} {i : Instruction} (h : Past code m₀ past m)
      (ht : m.turn code = .completed i .next after) :
      Past code m₀ ({ before := m, instruction := i, after } :: past) after

/-- All that a run comes to has a past. -/
theorem Steps.exists_past (h : Steps code m₀ m) : ∃ past, Past code m₀ past m := by
  induction h with
  | refl => exact ⟨[], .start⟩
  | tail _ hnext ih =>
    obtain ⟨past, hpast⟩ := ih
    obtain ⟨i, ht⟩ := hnext
    exact ⟨_, hpast.turn ht⟩

/-- The value that was last popped into a local variable, or zero if there was none. -/
inductive LastStored (index : UInt8) : List Passage → Value → Prop
  /-- At the start of a run it is zero. -/
  | none : LastStored index [] 0
  /-- The latest instruction has popped into it. -/
  | here {p : Passage} {past : List Passage} {v : Value}
      (hp : p.instruction.stored? = some index)
      (hv : p.before.stack.values = v :: p.after.stack.values) : LastStored index (p :: past) v
  /-- It was popped into before. -/
  | earlier {p : Passage} {past : List Passage} {v : Value}
      (hp : p.instruction.stored? ≠ some index) (h : LastStored index past v) :
      LastStored index (p :: past) v

namespace LastStored

variable {past : List Passage} {v : Value}

theorem eq_zero (h : LastStored index past v)
    (hpast : ∀ p ∈ past, p.instruction.stored? ≠ some index) : v = 0 := by
  induction h with
  | none => rfl
  | here hp => exact absurd hp (hpast _ (.head _))
  | earlier _ _ ih => exact ih fun p hp => hpast p (.tail _ hp)

theorem popped {later earlier : List Passage} {p : Passage}
    (h : LastStored index (later ++ p :: earlier) v) (hp : p.instruction.stored? = some index)
    (hlater : ∀ q ∈ later, q.instruction.stored? ≠ some index) :
    p.before.stack.values = v :: p.after.stack.values := by
  induction later with
  | nil =>
    cases h with
    | here _ hv => exact hv
    | earlier hne => exact absurd hp hne
  | cons q later ih =>
    cases h with
    | here hq => exact absurd hq (hlater q (.head _))
    | earlier _ h => exact ih h fun r hr => hlater r (.tail _ hr)

end LastStored

/-- **Every local variable holds what was last stored in it**, if all of them were zero at the
start. -/
theorem Past.lastStored {past : List Passage} (h : Past code m₀ past m)
    (hzero : ∀ (k : Nat) v, m₀.locals[k]? = some v → v = 0) {v : Value}
    (hv : m.locals[index.toNat]? = some v) : LastStored index past v := by
  induction h generalizing v with
  | start =>
    cases hzero _ _ hv
    exact .none
  | @turn past m after i _ ht ih =>
    obtain ⟨pos, -, -, hp⟩ := turn_eq_completed_iff.1 ht
    cases hi : i.stored? with
    | none =>
      rw [hp.locals_of_stored?_eq_none hi] at hv
      exact .earlier (by simp [hi]) (ih hv)
    | some stored =>
      obtain ⟨w, hw, -, hlocals⟩ := hp.locals_of_stored? hi
      rw [hlocals] at hv
      split at hv
      · next heq =>
        cases UInt8.toNat_inj.1 heq
        cases hv
        exact .here hi hw
      · next hne =>
        refine .earlier ?_ (ih hv)
        intro h
        cases hi.symm.trans h
        exact hne rfl

theorem Past.locals_size {past : List Passage} (h : Past code m₀ past m) :
    m.locals.size = m₀.locals.size := by
  induction h with
  | start => rfl
  | turn _ ht ih =>
    obtain ⟨pos, -, -, hp⟩ := turn_eq_completed_iff.1 ht
    exact hp.locals_size.trans ih

theorem eq_zero_of_getElem?_locals_start {stack : OperandStack} {n k : Nat} {v : Value}
    (h : (start stack n).locals[k]? = some v) : v = 0 := by
  obtain ⟨_, rfl⟩ := Array.getElem?_eq_some_iff.1 h
  exact Array.getElem_replicate _

/-- **Local variables read their last write.** Whatever an executor has run before, an execution
that ends has a past that begins with it and leads to the machine in front of its last turn. In the
past of an execution, be it one that ends or not, there are as many local variables as the limits
say, at most as many as an index can name, in front of every turn and behind it. An instruction that
loads pushes the value that the latest instruction in the past to store under its index has popped,
or zero if there was none. No other instruction than one that stores changes a local variable, and
this one only the one that it names; a turn that faults changes none either. -/
theorem locals_of_past (x : Executor) (code : Code) :
    (∀ turns e, x.execute? turns code = some e →
      ∃ past last, Past code (.start x.stack.clear x.limits.localsCapacity) past last ∧
        Ends code last e.outcome e.executor.stack) ∧
    ∀ past m, Past code (.start x.stack.clear x.limits.localsCapacity) past m →
      m.locals.size = min x.limits.localsCapacity 256 ∧
      (∀ i flow after, m.turn code = .completed i flow after →
        after.locals.size = min x.limits.localsCapacity 256 ∧
        (∀ index, i.loaded? = some index →
          ∃ v, after.stack.values = v :: m.stack.values ∧
            (∀ later p earlier, past = later ++ p :: earlier →
              p.instruction.stored? = some index →
              (∀ q ∈ later, q.instruction.stored? ≠ some index) →
              p.before.stack.values = v :: p.after.stack.values) ∧
            ((∀ p ∈ past, p.instruction.stored? ≠ some index) → v = 0)) ∧
        (i.stored? = none → after.locals = m.locals) ∧
        ∀ index, i.stored? = some index → ∀ k : Nat, k ≠ index.toNat →
          after.locals[k]? = m.locals[k]?) ∧
      ∀ kind after, m.turn code = .faulted kind after → after.locals = m.locals := by
  refine ⟨?_, ?_⟩
  · intro turns e he
    obtain ⟨ending, hrun, rfl⟩ := Option.map_eq_some_iff.1 he
    obtain ⟨last, hsteps, hends⟩ := steps_of_run hrun
    obtain ⟨past, hpast⟩ := hsteps.exists_past
    exact ⟨past, last, hpast, hends⟩
  intro past m hpast
  have hsize : m.locals.size = min x.limits.localsCapacity 256 :=
    hpast.locals_size.trans Array.size_replicate
  refine ⟨hsize, ?_, fun _ _ ht => (faultLeaves_of_turn ht).locals⟩
  intro i flow after ht
  obtain ⟨pos, -, -, hp⟩ := turn_eq_completed_iff.1 ht
  refine ⟨hp.locals_size.trans hsize, ?_, hp.locals_of_stored?_eq_none, ?_⟩
  · intro index hi
    obtain ⟨v, hv, hvalues⟩ := hp.values_of_loaded? hi
    have hlast : LastStored index past v :=
      hpast.lastStored (fun _ _ => eq_zero_of_getElem?_locals_start) hv
    refine ⟨v, hvalues, ?_, hlast.eq_zero⟩
    rintro later p earlier rfl hstored hlater
    exact hlast.popped hstored hlater
  · intro index hi k hk
    obtain ⟨v, -, -, hlocals⟩ := hp.locals_of_stored? hi
    exact (hlocals k).trans (if_neg hk.symm)

/-- Two stores into one local variable, in the short form and in the long one: loading it gives what
the second one popped. -/
theorem locals_of_past_two_stores :
    let code : Code := #[0x06, 0x3c, 0x07, 0x36, 0x01, 0x15, 0x01]
    let machine (pc : Int) (values : List Value) (room : Nat) (held : Value) : Machine :=
      ⟨⟨values, room⟩, pc, #[0, held]⟩
    ∃ past, Past code (.start (.empty 1) 2) past (machine 5 [] 1 4) ∧
      (machine 5 [] 1 4).turn code = .completed (.iload 1) .next (machine 7 [4] 0 4) ∧
      ∃ v, (machine 7 [4] 0 4).stack.values = [v] ∧ (machine 3 [4] 0 3).stack.values = [v] := by
  intro code machine
  have hthree : (machine 0 [] 1 0).turn code =
      .completed (.iconst 3) .next (machine 1 [3] 0 0) := by decide
  have hshort : (machine 1 [3] 0 0).turn code =
      .completed (.istoreShort 1) .next (machine 2 [] 1 3) := by decide
  have hfour : (machine 2 [] 1 3).turn code =
      .completed (.iconst 4) .next (machine 3 [4] 0 3) := by decide
  have hlong : (machine 3 [4] 0 3).turn code =
      .completed (.istore 1) .next (machine 5 [] 1 4) := by decide
  have hload : (machine 5 [] 1 4).turn code =
      .completed (.iload 1) .next (machine 7 [4] 0 4) := by decide
  have hpast := (((Past.start.turn hthree).turn hshort).turn hfour).turn hlong
  obtain ⟨-, hturns, -⟩ := (locals_of_past (.ofLimits ⟨1, 2⟩) code).2 _ _ hpast
  obtain ⟨v, hpushed, hpopped, -⟩ := (hturns _ _ _ hload).2.1 1 rfl
  exact ⟨_, hpast, hload, v, hpushed, hpopped [] _ _ rfl rfl (by simp)⟩

end Machine

end StackMachine
