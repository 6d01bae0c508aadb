import StackMachine.Proofs.Machine.Faults
import StackMachine.Proofs.Machine.Log

/-!
# What limits are for

Limits matter only through the faults that they raise (`Executor.execute?_of_limits`). Under two
limits of which the second are not smaller, a run goes the same way turn by turn, with the same
values on its stacks, as long as no fault of the first limits ends it (`Machine.run_agree`): a push
onto a stack that is full under these, or a local variable that there is only under the others.
-/

namespace StackMachine

namespace Machine

/-! ### Machines under two limits -/

/-- Two machines at the same place of a run under two limits: what the first one holds, the other
one holds as well. -/
structure Alike (limits limits' : Limits) (m m' : Machine) : Prop where
  within : Within limits m
  within' : Within limits' m'
  pc : m'.pc = m.pc
  values : m'.stack.values = m.stack.values
  locals : ∀ k < m.locals.size, m'.locals[k]? = m.locals[k]?

/-- The kind of fault that there would not have been under the other limits. -/
inductive Exceeds (limits limits' : Limits) : FaultKind → Prop
  /-- The stack is full. -/
  | stackOverflow : Exceeds limits limits' (.stackOverflow limits.stackCapacity)
  /-- There is no such local variable, but there are more under the other limits. -/
  | localOutOfBounds {index : UInt8}
      (h : min limits.localsCapacity addressableLocals <
        min limits'.localsCapacity addressableLocals) :
      Exceeds limits limits'
        (.localOutOfBounds index (min limits.localsCapacity addressableLocals))

/-- Two turns go the same way. -/
inductive Agree (limits limits' : Limits) : Turn → Turn → Prop
  /-- Both are at the end of the code. -/
  | fellOff : Agree limits limits' .fellOff .fellOff
  /-- The same instruction is carried out. -/
  | completed {i : Instruction} {flow : Flow} {after after' : Machine}
      (h : Alike limits limits' after after') :
      Agree limits limits' (.completed i flow after) (.completed i flow after')
  /-- Both fault in the same way. -/
  | faulted {kind : FaultKind} {after after' : Machine}
      (h : after'.stack.values = after.stack.values) :
      Agree limits limits' (.faulted kind after) (.faulted kind after')

variable {limits limits' : Limits} {m m' : Machine}

theorem Alike.start (h : limits.localsCapacity ≤ limits'.localsCapacity) :
    Alike limits limits' limits.start limits'.start where
  within := within_start limits
  within' := within_start limits'
  pc := rfl
  values := rfl
  locals k hk := by
    simp only [Limits.start, Machine.start, Array.size_replicate] at hk
    simp only [Limits.start, Machine.start, Array.getElem?_replicate]
    rw [if_pos hk, if_pos (by omega)]

theorem Alike.behind (ha : Alike limits limits' m m') (pos : Nat) (i : Instruction) :
    Alike limits limits' (m.behind pos i) (m'.behind pos i) :=
  ⟨ha.within.behind pos i, ha.within'.behind pos i, rfl, ha.values, ha.locals⟩

theorem Alike.stack {values : List Value} {room : Nat} (ha : Alike limits limits' m m')
    (hm : m.stack = ⟨values, room⟩) : ∃ room', m'.stack = ⟨values, room'⟩ := by
  refine ⟨m'.stack.room, ?_⟩
  have hvalues : m'.stack.values = values := ha.values.trans (congrArg OperandStack.values hm)
  rw [← hvalues]

/-- Where there is room under the first limits there is room under limits that are not smaller. -/
theorem Alike.room (hs : limits.stackCapacity ≤ limits'.stackCapacity) {values : List Value}
    {room : Nat} (ha : Alike limits limits' m m') (hm : m.stack = ⟨values, room + 1⟩) :
    ∃ room', m'.stack = ⟨values, room' + 1⟩ := by
  obtain ⟨room', hm'⟩ := ha.stack hm
  have hc := ha.within.capacity
  have hc' := ha.within'.capacity
  simp only [OperandStack.capacity, OperandStack.depth, hm, hm'] at hc hc'
  obtain ⟨room'', rfl⟩ : ∃ n, room' = n + 1 := ⟨room' - 1, by omega⟩
  exact ⟨room'', hm'⟩

theorem Alike.lt_size (ha : Alike limits limits' m m') {k : Nat} (hk : k < m.locals.size) :
    k < m'.locals.size := by
  have := (ha.locals k hk).trans (Array.getElem?_eq_getElem hk)
  exact (Array.getElem?_eq_some_iff.1 this).1

/-! ### One turn under two limits -/

/-- What is carried out under some limits is carried out under limits that are not smaller. -/
theorem Performs.alike (hs : limits.stackCapacity ≤ limits'.stackCapacity) {i : Instruction}
    {flow : Flow} {after : Machine} (h : Performs i m flow after)
    (ha : Alike limits limits' m m') :
    ∃ after', Performs i m' flow after' ∧ Alike limits limits' after after' := by
  suffices hp : ∃ after', Performs i m' flow after' ∧ after'.pc = after.pc ∧
      after'.stack.values = after.stack.values ∧
      ∀ k < after.locals.size, after'.locals[k]? = after.locals[k]? by
    obtain ⟨after', h', hpc, hvalues, hlocals⟩ := hp
    exact ⟨after', h', h.within ha.within, h'.within ha.within', hpc, hvalues, hlocals⟩
  cases h with
  | nop => exact ⟨_, .nop, ha.pc, ha.values, ha.locals⟩
  | constant hi hm =>
    obtain ⟨room', hm'⟩ := ha.room hs hm
    exact ⟨_, .constant hi hm', ha.pc, rfl, ha.locals⟩
  | load hi hv hm =>
    obtain ⟨room', hm'⟩ := ha.room hs hm
    have hlt := (Array.getElem?_eq_some_iff.1 hv).1
    exact ⟨_, .load hi ((ha.locals _ hlt).trans hv) hm', ha.pc, rfl, ha.locals⟩
  | store hi hl hm =>
    obtain ⟨room', hm'⟩ := ha.stack hm
    refine ⟨_, .store hi (ha.lt_size hl) hm', ha.pc, rfl, ?_⟩
    intro k hk
    rw [Array.size_set] at hk
    rw [Array.getElem?_set, Array.getElem?_set, ha.locals k hk]
  | binary hv hm =>
    obtain ⟨room', hm'⟩ := ha.stack hm
    exact ⟨_, .binary hv hm', ha.pc, rfl, ha.locals⟩
  | negate hm =>
    obtain ⟨room', hm'⟩ := ha.stack hm
    exact ⟨_, .negate hm', ha.pc, rfl, ha.locals⟩
  | branchIf hc hm =>
    obtain ⟨room', hm'⟩ := ha.stack hm
    exact ⟨_, .branchIf hc hm', by rw [ha.pc], rfl, ha.locals⟩
  | passIf hc hm =>
    obtain ⟨room', hm'⟩ := ha.stack hm
    exact ⟨_, .passIf hc hm', ha.pc, rfl, ha.locals⟩
  | goto => exact ⟨_, .goto, by rw [ha.pc], ha.values, ha.locals⟩
  | ireturn hm =>
    obtain ⟨room', hm'⟩ := ha.stack hm
    exact ⟨_, .ireturn hm', ha.pc, rfl, ha.locals⟩
  | returnVoid => exact ⟨_, .returnVoid, ha.pc, ha.values, ha.locals⟩
  | halt => exact ⟨_, .halt, ha.pc, ha.values, ha.locals⟩

/-- What fails under some limits fails under limits that are not smaller, if it is not for the
limits. -/
theorem Fails.alike (hl : limits.localsCapacity ≤ limits'.localsCapacity) {i : Instruction}
    {kind : FaultKind} {after : Machine} (h : Fails i m kind after)
    (ha : Alike limits limits' m m') :
    Exceeds limits limits' kind ∨
      ∃ after', Fails i m' kind after' ∧ after'.stack.values = after.stack.values := by
  have hsize : min limits.localsCapacity addressableLocals <
      min limits'.localsCapacity addressableLocals ∨ m'.locals.size = m.locals.size := by
    rw [ha.within.locals, ha.within'.locals]
    omega
  have hdepth : m'.stack.depth = m.stack.depth := congrArg List.length ha.values
  have hdrop (n : Nat) : (m'.stack.drop n).values = (m.stack.drop n).values :=
    congrArg (List.drop n) ha.values
  cases h with
  | constantFull | loadFull =>
    rw [ha.within.capacity]
    exact .inl .stackOverflow
  | loadOutside hi hle =>
    rcases hsize with hlt | heq
    · rw [ha.within.locals]
      exact .inl (.localOutOfBounds hlt)
    · rw [← heq] at hle ⊢
      exact .inr ⟨_, .loadOutside hi hle, ha.values⟩
  | storeOutside hi hd hle =>
    rcases hsize with hlt | heq
    · rw [ha.within.locals]
      exact .inl (.localOutOfBounds hlt)
    · rw [← heq] at hle ⊢
      exact .inr ⟨_, .storeOutside hi (hdepth ▸ hd) hle, hdrop 1⟩
  | underflow hd => exact .inr ⟨_, .underflow (hdepth ▸ hd), hdrop _⟩
  | noResult hv hm => exact .inr ⟨_, .noResult hv (ha.values.trans hm), hdrop 2⟩

section

variable (hs : limits.stackCapacity ≤ limits'.stackCapacity)
  (hl : limits.localsCapacity ≤ limits'.localsCapacity)

include hs hl

/-- A turn goes the same way under both limits, or it faults for the smaller ones. -/
theorem turn_agree (code : Code) (ha : Alike limits limits' m m') :
    (∃ kind after, m.turn code = .faulted kind after ∧ Exceeds limits limits' kind) ∨
      Agree limits limits' (m.turn code) (m'.turn code) := by
  have hpc' := ha.pc
  rcases turn_cases code m with ⟨hpc, e⟩ | ⟨hout, e⟩ | ⟨pos, hpc, hpos, ht⟩
  · rw [e, turn_of_eq_size (hpc'.trans hpc)]
    exact .inr .fellOff
  · rw [e, turn_of_outside (by rwa [hpc'])]
    exact .inr (.faulted ha.values)
  rw [hpc] at hpc'
  rcases ht with ⟨b, hb, hop, e⟩ | ⟨op, hb, hshort, e⟩ |
    ⟨i, hi, ⟨flow, after, hp, e⟩ | ⟨kind, after, hf, e⟩⟩
  · rw [e, turn_of_unknown hpc' hb hop]
    exact .inr (.faulted ha.values)
  · rw [e, turn_of_short hpc' hb hshort]
    exact .inr (.faulted ha.values)
  · obtain ⟨after', hp', ha'⟩ := hp.alike hs (ha.behind pos i)
    rw [e, turn_of_performs hpc' hi hp']
    exact .inr (.completed ha')
  · rcases hf.alike hl (ha.behind pos i) with hexceeds | ⟨after', hf', hvalues⟩
    · exact .inl ⟨kind, after, e, hexceeds⟩
    · rw [e, turn_of_fails hpc' hi hf']
      exact .inr (.faulted hvalues)

/-- **A run under two limits** ends in the same way, and with the same values left behind, or it
faults for the smaller limits. If it does not end with so many turns under one of them, neither
does it under the other. -/
theorem run_agree (code : Code) (ha : Alike limits limits' m m') (logged : Bool) (turns : Nat)
    (log log' : Array Step) :
    (∃ ending fault, m.run logged code turns log = some ending ∧
      ending.outcome = .faulted fault ∧ Exceeds limits limits' fault.kind) ∨
    Option.Rel (fun e e' : Ending => e'.outcome = e.outcome ∧ e'.stack.values = e.stack.values)
      (m.run logged code turns log) (m'.run logged code turns log') := by
  induction turns generalizing m m' log log' with
  | zero => exact .inr .none
  | succ turns ih =>
    have hpc := ha.pc
    have hvalues := ha.values
    unfold run
    rcases turn_agree hs hl code ha with ⟨kind, after, ht, hexceeds⟩ | hagree
    · rw [ht]
      exact .inl ⟨_, _, rfl, rfl, hexceeds⟩
    · generalize m.turn code = t at hagree ⊢
      generalize m'.turn code = t' at hagree ⊢
      cases hagree with
      | fellOff => exact .inr (.some ⟨rfl, hvalues⟩)
      | faulted h => exact .inr (.some ⟨by rw [hpc], h⟩)
      | @completed i flow after after' h =>
        cases flow with
        | next => exact ih h _ _
        | stop completion => exact .inr (.some ⟨rfl, h.values⟩)

end

end Machine

/-! ### Executions under two limits -/

namespace Executor

open Machine

variable {limits limits' : Limits} {code : Code} {turns : Nat}

/-- An execution on an executor that has not run anything is a run from the start. -/
theorem execute?_ofLimits (limits : Limits) (turns : Nat) (code : Code) :
    (ofLimits limits).execute? turns code =
      (Machine.run false code turns limits.start #[]).map fun ending =>
        { outcome := ending.outcome
          executor := { ofLimits limits with stack := ending.stack }
          events :=
            .executing code.size limits ::
              (ending.log.toList.map .step ++ [ending.outcome.event]) } := by
  simp [execute?, ofLimits, OperandStack.clear, Limits.start]

theorem execute?_agree (hs : limits.stackCapacity ≤ limits'.stackCapacity)
    (hl : limits.localsCapacity ≤ limits'.localsCapacity) (code : Code) (turns : Nat) :
    (∃ e fault, (ofLimits limits).execute? turns code = some e ∧ e.outcome = .faulted fault ∧
      Exceeds limits limits' fault.kind) ∨
    Option.Rel
      (fun e e' : Execution =>
        e'.outcome = e.outcome ∧ e'.executor.stack.values = e.executor.stack.values)
      ((ofLimits limits).execute? turns code) ((ofLimits limits').execute? turns code) := by
  rw [execute?_ofLimits, execute?_ofLimits]
  rcases run_agree hs hl code (.start hl) false turns #[] #[] with
    ⟨ending, fault, hrun, hfault, hexceeds⟩ | hrel
  · rw [hrun]
    exact .inl ⟨_, fault, rfl, hfault, hexceeds⟩
  · generalize Machine.run _ code turns limits.start #[] = r at hrel ⊢
    generalize Machine.run _ code turns limits'.start #[] = r' at hrel ⊢
    cases hrel with
    | none => exact .inr .none
    | some h => exact .inr (.some h)

/-- A fault of an execution lies outside the code, or it has a cause there under the limits. -/
theorem cause_of_execute? {e : Execution} (h : (ofLimits limits).execute? turns code = some e)
    {fault : Fault} (hf : e.outcome = .faulted fault) :
    fault.kind = .pcOutOfBounds code.size ∨
      ∃ pos values, FaultCause limits code pos values fault.kind := by
  obtain ⟨last, hlast, hends⟩ := reachable_of_execute? h
  simp only [ofLimits, OperandStack.capacity_empty] at hlast
  rw [hf] at hends
  rcases hends.cause hlast with houtside | ⟨pos, hcause⟩
  · exact .inl houtside
  · exact .inr ⟨pos, _, hcause⟩

/-- An execution that overflows its stack reports the capacity of the stack. -/
theorem capacity_of_stackOverflow {e : Execution}
    (h : (ofLimits limits).execute? turns code = some e) {capacity : Nat} {pc : Int}
    (hf : e.outcome = .faulted ⟨.stackOverflow capacity, pc⟩) :
    capacity = limits.stackCapacity := by
  rcases cause_of_execute? h hf with houtside | ⟨pos, values, hcause⟩
  · cases houtside
  · cases hcause <;> rfl

/-- With all local variables that can be named there is no other that could be meant. -/
theorem not_localOutOfBounds {e : Execution} (hl : addressableLocals ≤ limits.localsCapacity)
    (h : (ofLimits limits).execute? turns code = some e) (index : UInt8) (capacity : Nat)
    (pc : Int) : e.outcome ≠ .faulted ⟨.localOutOfBounds index capacity, pc⟩ := by
  intro hf
  have hindex := index.toNat_lt
  simp only [addressableLocals] at hl
  rcases cause_of_execute? h hf with houtside | ⟨pos, values, hcause⟩
  · cases houtside
  · cases hcause <;> omega

/-- What an execution leads to without a fault for its limits, it leads to under all limits that are
not smaller. -/
theorem execute?_of_le (hs : limits.stackCapacity ≤ limits'.stackCapacity)
    (hl : limits.localsCapacity ≤ limits'.localsCapacity) {e : Execution}
    (he : (ofLimits limits).execute? turns code = some e)
    (hoverflow : ∀ capacity pc, e.outcome ≠ .faulted ⟨.stackOverflow capacity, pc⟩)
    (hlocal : ∀ index capacity pc, e.outcome ≠ .faulted ⟨.localOutOfBounds index capacity, pc⟩) :
    ∃ e', (ofLimits limits').execute? turns code = some e' ∧ e'.outcome = e.outcome ∧
      e'.executor.stack.values = e.executor.stack.values := by
  rcases execute?_agree hs hl code turns with ⟨e', ⟨kind, pc⟩, he', hfault, hexceeds⟩ | hrel
  · cases he.symm.trans he'
    cases hexceeds with
    | stackOverflow => exact absurd hfault (hoverflow _ _)
    | localOutOfBounds => exact absurd hfault (hlocal _ _ _)
  · rw [he] at hrel
    generalize (ofLimits limits').execute? turns code = r at hrel ⊢
    cases hrel with
    | some h => exact ⟨_, rfl, h⟩

/-- What overflows a stack overflows a smaller one. -/
theorem stackOverflow_of_le (hs : limits.stackCapacity ≤ limits'.stackCapacity)
    (hl : limits.localsCapacity = limits'.localsCapacity) {e : Execution}
    (he : (ofLimits limits').execute? turns code = some e) {capacity : Nat} {pc : Int}
    (hf : e.outcome = .faulted ⟨.stackOverflow capacity, pc⟩) :
    ∃ e' pc', (ofLimits limits).execute? turns code = some e' ∧
      e'.outcome = .faulted ⟨.stackOverflow limits.stackCapacity, pc'⟩ := by
  rcases execute?_agree hs (Nat.le_of_eq hl) code turns with
    ⟨e', ⟨kind, pc'⟩, he', hfault, hexceeds⟩ | hrel
  · cases hexceeds with
    | stackOverflow => exact ⟨e', pc', he', hfault⟩
    | localOutOfBounds hlt =>
      rw [hl] at hlt
      exact absurd hlt (Nat.lt_irrefl _)
  · rw [he] at hrel
    generalize hr : (ofLimits limits).execute? turns code = r at hrel
    cases hrel with
    | some h =>
      have hf' := h.1.symm.trans hf
      cases capacity_of_stackOverflow hr hf'
      exact ⟨_, pc, rfl, hf'⟩

/-- Local variables that cannot be named make no difference. -/
theorem execute?_of_addressableLocals_le {stackCapacity localsCapacity localsCapacity' : Nat}
    (hl : addressableLocals ≤ localsCapacity) (hl' : addressableLocals ≤ localsCapacity')
    (turns : Nat) (code : Code) :
    (((ofLimits ⟨stackCapacity, localsCapacity⟩).execute? turns code).map fun e =>
        (e.outcome, e.executor.stack)) =
      (((ofLimits ⟨stackCapacity, localsCapacity'⟩).execute? turns code).map fun e =>
        (e.outcome, e.executor.stack)) := by
  have hmin : min localsCapacity addressableLocals = min localsCapacity' addressableLocals :=
    (Nat.min_eq_right hl).trans (Nat.min_eq_right hl').symm
  have hstart : Limits.start ⟨stackCapacity, localsCapacity⟩ =
      Limits.start ⟨stackCapacity, localsCapacity'⟩ := by
    rw [Limits.start, Limits.start, Machine.start, Machine.start, hmin]
  rw [execute?_ofLimits, execute?_ofLimits, Option.map_map, Option.map_map, hstart]
  rfl

/-- **Limits matter only through the faults that they raise.** An execution that ends without a full
stack and without a missing local variable ends in the same way, and with the same values on its
stack, under all limits that are not smaller. One that overflows its stack does so, at the
capacity, under every smaller capacity of the stack. And all capacities for local variables that
allow for every index are the same, and no local variable is missing under them. -/
theorem execute?_of_limits :
    (∀ limits limits' : Limits, limits.stackCapacity ≤ limits'.stackCapacity →
      limits.localsCapacity ≤ limits'.localsCapacity → ∀ turns code e,
      (ofLimits limits).execute? turns code = some e →
      (∀ capacity pc, e.outcome ≠ .faulted ⟨.stackOverflow capacity, pc⟩) →
      (∀ index capacity pc, e.outcome ≠ .faulted ⟨.localOutOfBounds index capacity, pc⟩) →
      ∃ e', (ofLimits limits').execute? turns code = some e' ∧ e'.outcome = e.outcome ∧
        e'.executor.stack.values = e.executor.stack.values) ∧
    (∀ (limits : Limits) stackCapacity, stackCapacity ≤ limits.stackCapacity → ∀ turns code e,
      (ofLimits limits).execute? turns code = some e →
      (∃ capacity pc, e.outcome = .faulted ⟨.stackOverflow capacity, pc⟩) →
      ∃ e' pc, (ofLimits { limits with stackCapacity }).execute? turns code = some e' ∧
        e'.outcome = .faulted ⟨.stackOverflow stackCapacity, pc⟩) ∧
    ∀ stackCapacity localsCapacity localsCapacity', 256 ≤ localsCapacity →
      256 ≤ localsCapacity' → ∀ turns code,
      (((ofLimits ⟨stackCapacity, localsCapacity⟩).execute? turns code).map fun e =>
          (e.outcome, e.executor.stack)) =
        (((ofLimits ⟨stackCapacity, localsCapacity'⟩).execute? turns code).map fun e =>
          (e.outcome, e.executor.stack)) ∧
      ∀ e, (ofLimits ⟨stackCapacity, localsCapacity⟩).execute? turns code = some e →
        ∀ index capacity pc, e.outcome ≠ .faulted ⟨.localOutOfBounds index capacity, pc⟩ := by
  refine ⟨?_, ?_, ?_⟩
  · intro limits limits' hs hl turns code e he hoverflow hlocal
    exact execute?_of_le hs hl he hoverflow hlocal
  · rintro limits stackCapacity hs turns code e he ⟨capacity, pc, hf⟩
    exact stackOverflow_of_le hs rfl he hf
  · intro stackCapacity localsCapacity localsCapacity' hl hl' turns code
    refine ⟨execute?_of_addressableLocals_le hl hl' turns code, ?_⟩
    intro e he
    refine not_localOutOfBounds ?_ he
    exact hl

/-- Two additions need a stack of three for the constants `1`, `2` and `3`. What a stack of that
size leads to, every larger one does, and below it all overflow. -/
theorem execute?_of_limits_two_additions :
    let code : Code := #[0x04, 0x05, 0x06, 0x60, 0x60, 0xac]
    (∃ e, (ofLimits ⟨5, 300⟩).execute? 6 code = some e ∧
      e.outcome = .completed ⟨6, .returned⟩ ∧ e.executor.stack.values = []) ∧
    (∃ e pc, (ofLimits ⟨1, 0⟩).execute? 6 code = some e ∧
      e.outcome = .faulted ⟨.stackOverflow 1, pc⟩) ∧
    ((ofLimits ⟨3, 256⟩).execute? 6 code).map (fun e => (e.outcome, e.executor.stack)) =
      ((ofLimits ⟨3, 1000⟩).execute? 6 code).map fun e => (e.outcome, e.executor.stack) := by
  intro code
  obtain ⟨hlarger, hsmaller, hlocals⟩ := execute?_of_limits
  refine ⟨?_, ?_, (hlocals 3 256 1000 (by decide) (by decide) 6 code).1⟩
  · have hends : ((ofLimits ⟨3, 0⟩).execute? 6 code).map
        (fun e => (e.outcome, e.executor.stack.values)) =
        some (.completed ⟨6, .returned⟩, []) := rfl
    obtain ⟨e, he, heq⟩ := Option.map_eq_some_iff.1 hends
    obtain ⟨houtcome, hvalues⟩ := Prod.mk.inj heq
    obtain ⟨e', he', houtcome', hvalues'⟩ :=
      hlarger ⟨3, 0⟩ ⟨5, 300⟩ (by decide) (by decide) 6 code e he
        (fun _ _ h => by rw [houtcome] at h; cases h)
        (fun _ _ _ h => by rw [houtcome] at h; cases h)
    exact ⟨e', he', houtcome'.trans houtcome, hvalues'.trans hvalues⟩
  · have hends : ((ofLimits ⟨2, 0⟩).execute? 6 code).map Execution.outcome =
        some (.faulted ⟨.stackOverflow 2, 2⟩) := rfl
    obtain ⟨e, he, houtcome⟩ := Option.map_eq_some_iff.1 hends
    exact hsmaller ⟨2, 0⟩ 1 (by decide) 6 code e he ⟨2, 2, houtcome⟩

end Executor

end StackMachine
