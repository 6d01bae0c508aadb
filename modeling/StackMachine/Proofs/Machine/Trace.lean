import StackMachine.Proofs.Machine.Log
import StackMachine.Proofs.Text

/-!
# What a trace says

An executor that is set to debugging tells of every instruction that it completes. This changes
nothing else (`Executor.trace_of_execute?`): the outcome, the remaining stack and the other events
are the same, and the steps that are told are those of the run, one behind the other.

The steps can be followed through the code without running it (`Leads`): where the next one stands
is decided by the instruction of a step and by the stack in front of it, which is the one that the
step before it told. The text in which a stack is told leaves no doubt about its values
(`OperandStack.text_eq_text_iff`).
-/

namespace StackMachine

open Text

/-! ### The text of a stack -/

namespace OperandStack

/-- Values as they are written behind the first one. -/
def followers (vs : List Value) : List Char :=
  vs.flatMap fun v => ',' :: ' ' :: (toString v.toInt).toList

theorem toList_intercalate (v : Value) (vs : List Value) :
    (", ".intercalate ((v :: vs).map fun v => toString v.toInt)).toList =
      (toString v.toInt).toList ++ followers vs := by
  induction vs generalizing v with
  | nil => simp [followers]
  | cons w vs ih =>
    have hrest := ih w
    simp only [List.map_cons, String.intercalate_cons_cons, String.toList_append] at hrest ⊢
    rw [hrest]
    simp [followers]

/-- A number in a row ends at the comma behind it. -/
theorem eq_of_toString_append {v w : Value} {vs ws : List Value}
    (h : (toString v.toInt).toList ++ followers vs = (toString w.toInt).toList ++ followers ws) :
    v = w ∧ followers vs = followers ws := by
  have hnumber (v : Value) (vs : List Value) :
      ((toString v.toInt).toList ++ followers vs).takeWhile (· ≠ ',') =
        (toString v.toInt).toList := by
    apply takeWhile_append_of_head?
    · intro c hc
      rw [decide_eq_true_eq]
      rintro rfl
      rcases char_of_mem_toString_int hc with hdigit | hminus
      · cases hdigit
      · cases hminus
    · cases vs <;> simp [followers]
  have htext : (toString v.toInt).toList = (toString w.toInt).toList := by
    rw [← hnumber v vs, h, hnumber]
  have hparse (v : Value) : Numeral.parse (toString v.toInt).toList = .ok v.toInt := by
    have := v.le_toInt
    have := v.toInt_lt
    exact Numeral.parse_toString (by omega)
  have hvalue : v.toInt = w.toInt := Except.ok.inj ((hparse v).symm.trans (htext ▸ hparse w))
  exact ⟨Int32.toInt_inj.1 hvalue, List.append_cancel_left (htext ▸ h)⟩

theorem followers_injective : Function.Injective followers := by
  intro vs
  induction vs with
  | nil =>
    rintro (_ | ⟨w, ws⟩) h
    · rfl
    · cases h
  | cons v vs ih =>
    rintro (_ | ⟨w, ws⟩) h
    · cases h
    · obtain ⟨rfl, hrest⟩ := eq_of_toString_append (List.cons.inj (List.cons.inj h).2).2
      rw [ih hrest]

/-- Values in a row, divided by commas, can be told from each other. -/
theorem intercalate_injective :
    Function.Injective fun vs : List Value =>
      ", ".intercalate (vs.map fun v => toString v.toInt) := by
  intro vs ws h
  have htext := congrArg String.toList h
  match vs, ws with
  | [], [] => rfl
  | [], w :: ws =>
    rw [toList_intercalate] at htext
    exact absurd (List.append_eq_nil_iff.1 htext.symm).1 (toList_toString_int_ne_nil _)
  | v :: vs, [] =>
    rw [toList_intercalate] at htext
    exact absurd (List.append_eq_nil_iff.1 htext).1 (toList_toString_int_ne_nil _)
  | v :: vs, w :: ws =>
    rw [toList_intercalate, toList_intercalate] at htext
    obtain ⟨rfl, hrest⟩ := eq_of_toString_append htext
    rw [followers_injective hrest]

/-- **The text of a stack tells its values.** -/
theorem text_eq_text_iff {s t : OperandStack} : s.text = t.text ↔ s.values = t.values := by
  constructor
  · intro h
    have hrow := String.append_right_inj _ |>.1 (String.append_left_inj _ |>.1 h)
    exact List.reverse_inj.1 (intercalate_injective hrow)
  · intro h
    rw [text, text, bottomUp, bottomUp, h]

end OperandStack

/-! ### Events -/

/-- The event tells of a completed instruction. -/
def Event.isStep : Event → Bool
  | .step _ => true
  | _ => false

@[simp] theorem Event.isStep_step (s : Step) : (Event.step s).isStep = true := rfl

@[simp] theorem Event.isStep_executing (codeLength : Nat) (limits : Limits) :
    (Event.executing codeLength limits).isStep = false := rfl

@[simp] theorem Outcome.isStep_event (outcome : Outcome) : outcome.event.isStep = false := by
  cases outcome <;> rfl

/-! ### Following steps through the code -/

/-- Whether an instruction branches, with these values on the stack, the top one first. -/
def Instruction.branches : Instruction → List Value → Bool
  | .goto _, _ => true
  | .ifIcmp cond _, right :: left :: _ => cond.holds left right
  | _, _ => false

/-- Where a run goes on from an instruction that it completes with these values on the stack in
front of it: behind the instruction, or where it branches to. -/
def Located.successor (l : Located) (values : List Value) : Int :=
  match l.target? with
  | some target => if l.instruction.branches values then target else l.stop
  | none => l.stop

/-- The steps lead through the code, from a position with some values on the stack to a last
position: each one is of the instruction that is decoded at its position, and is followed from its
successor on. -/
inductive Leads (code : Code) : Int → List Value → List Step → Int → Prop
  /-- Without steps the position is the last one. -/
  | nil {pc : Int} {values : List Value} : Leads code pc values [] pc
  /-- The steps behind the first one start on the stack that it tells. -/
  | cons {l : Located} {values : List Value} {stack : OperandStack} {steps : List Step}
      {last : Int} (hl : (Cursor.located { code, pos := l.start }).1 = .ok l)
      (h : Leads code (l.successor values) stack.values steps last) :
      Leads code l.start values ({ pc := l.start, instruction := l.instruction, stack } :: steps)
        last

namespace Machine

variable {code : Code} {m after : Machine}

/-- An instruction that does not end the run goes on at its successor. -/
theorem Performs.pc {i : Instruction} {pos : Nat} (h : Performs i (m.behind pos i) .next after) :
    after.pc =
      Located.successor { instruction := i, start := pos, stop := pos + i.size }
        m.stack.values := by
  -- A branch counts its offset from its own opcode, which is as far back as it is long.
  have target (offset : Int) : ((pos + branchSize : Nat) : Int) + offset - branchSize =
      pos + offset := by omega
  cases h with
  | nop | binary | negate => rfl
  | constant hi | load hi | store hi => cases i <;> cases hi <;> rfl
  | branchIf hc hs =>
    have hs : m.stack.values = _ := congrArg OperandStack.values hs
    rw [hs]
    exact (target _).trans (if_pos hc).symm
  | passIf hc hs =>
    have hs : m.stack.values = _ := congrArg OperandStack.values hs
    rw [hs]
    exact (if_neg (by simp [Instruction.branches, hc])).symm
  | goto => exact target _

/-- Only the end of the code is a place to fall off. -/
theorem Performs.termination {i : Instruction} {completion : Completion}
    (h : Performs i m (.stop completion) after) : completion.termination ≠ .fellOff := by
  cases h <;> exact nofun

theorem pc_of_fellOff (h : m.turn code = .fellOff) : m.pc = code.size := by
  rcases turn_cases code m with ⟨hpc, -⟩ | ⟨-, e⟩ |
    ⟨_, -, -, ⟨_, -, -, e⟩ | ⟨_, -, -, e⟩ | ⟨_, -, ⟨_, _, -, e⟩ | ⟨_, _, -, e⟩⟩⟩
  · exact hpc
  all_goals cases e.symm.trans h

/-- A completed instruction is the one that is decoded at the program counter. -/
theorem located_of_turn {i : Instruction} {flow : Flow}
    (h : m.turn code = .completed i flow after) :
    ∃ l : Located, (Cursor.located { code, pos := l.start }).1 = .ok l ∧ m.pc = l.start ∧
      i = l.instruction ∧ (flow = .next → after.pc = l.successor m.stack.values) := by
  obtain ⟨pos, hpc, hi, hp⟩ := turn_eq_completed_iff.1 h
  refine ⟨{ instruction := i, start := pos, stop := pos + i.size }, hi.located, hpc, rfl, ?_⟩
  rintro rfl
  exact hp.pc

/-- The completed instructions of a run lead to the place where it faults or falls off. -/
theorem Runs.leads {n : Nat} {steps : List Step} {outcome : Outcome} {stack : OperandStack}
    (h : Runs code m n steps outcome stack) :
    ∃ last, Leads code m.pc m.stack.values steps last ∧
      (∀ fault, outcome = .faulted fault → fault.pc = last) ∧
      ∀ completion, outcome = .completed completion → completion.termination = .fellOff →
        last = code.size := by
  induction h with
  | fellOff ht =>
    refine ⟨_, .nil, nofun, ?_⟩
    intro _ _ _
    exact pc_of_fellOff ht
  | faulted ht =>
    refine ⟨_, .nil, ?_, nofun⟩
    rintro _ ⟨⟩
    rfl
  | stopped ht =>
    obtain ⟨l, hl, hpc, rfl, -⟩ := located_of_turn ht
    rw [hpc]
    refine ⟨_, .cons hl .nil, nofun, ?_⟩
    rintro _ ⟨⟩ hoff
    obtain ⟨_, -, -, hp⟩ := turn_eq_completed_iff.1 ht
    exact absurd hoff hp.termination
  | next ht _ ih =>
    obtain ⟨l, hl, hpc, rfl, hnext⟩ := located_of_turn ht
    obtain ⟨last, hleads, hends⟩ := ih
    rw [hnext rfl] at hleads
    rw [hpc]
    exact ⟨last, .cons hl hleads, hends⟩

/-- A run that completes leaves the stack behind that its last step tells, or without steps the one
that it started with. -/
theorem Runs.getLastD_stack {n : Nat} {steps : List Step} {outcome : Outcome}
    {stack : OperandStack} (h : Runs code m n steps outcome stack) {completion : Completion}
    (hc : outcome = .completed completion) : (steps.map Step.stack).getLastD m.stack = stack := by
  induction h with
  | fellOff | stopped => rfl
  | faulted => cases hc
  | next _ _ ih => exact List.getLastD_cons.trans (ih hc)

end Machine

namespace Executor

open Machine

/-- **A trace is faithful and harmless.** If an executor runs a code to an end, it does so both with
and without debugging, to the same outcome and with the same stack left behind, and what is told
without debugging is what is told with it, apart from the steps.

With debugging there is one step for each completed instruction, in the order of the run. The first
one stands at the beginning of the code, and from there the steps lead through the code to the place
where the run faults or falls off. If the run completes, the last step has told of the stack that is
left behind. -/
theorem trace_of_execute? {x : Executor} {turns : Nat} {code : Code} {e : Execution}
    (h : x.execute? turns code = some e) :
    ∃ off on, (x.setDebug false).execute? turns code = some off ∧
      (x.setDebug true).execute? turns code = some on ∧
      off.outcome = on.outcome ∧ off.executor.stack = on.executor.stack ∧
      off.events = on.events.filter (fun event => !event.isStep) ∧
      ∃ n steps,
        on.events = .executing code.size x.limits :: (steps.map .step ++ [on.outcome.event]) ∧
        Runs code (.start x.stack.clear x.limits.localsCapacity) n steps on.outcome
          on.executor.stack ∧
        (∃ last, Leads code 0 [] steps last ∧
          (∀ fault, on.outcome = .faulted fault → fault.pc = last) ∧
          ∀ completion, on.outcome = .completed completion → completion.termination = .fellOff →
            last = code.size) ∧
        ∀ completion, on.outcome = .completed completion → ∀ s ∈ steps.getLast?,
          s.stack = on.executor.stack ∧
            ("stack", on.executor.stack.text) ∈ (Event.step s).fields := by
  obtain ⟨n, hn, steps, hr, -, -⟩ := execute?_eq_some_iff.1 h
  refine ⟨
    { e with
      executor := { x.setDebug false with stack := e.executor.stack }
      events := [.executing code.size x.limits, e.outcome.event] },
    { e with
      executor := { x.setDebug true with stack := e.executor.stack }
      events := .executing code.size x.limits :: (steps.map .step ++ [e.outcome.event]) },
    execute?_eq_some_iff.2 ⟨n, hn, steps, hr, rfl, rfl⟩,
    execute?_eq_some_iff.2 ⟨n, hn, steps, hr, rfl, rfl⟩, rfl, rfl, ?_, n, steps, rfl, hr,
    hr.leads, ?_⟩
  · simp [List.filter_map]
  · intro completion hc s hs
    have hlast : s.stack = e.executor.stack := by
      rw [← hr.getLastD_stack hc, List.getLastD_eq_getLast?, List.getLast?_map, hs]
      rfl
    exact ⟨hlast, by simp [Event.fields, hlast]⟩

/-- A branch forth to two constants, and a branch back from their comparison to the end of the
run. -/
theorem trace_of_execute?_forth_and_back :
    let x := ofLimits ⟨2, 0⟩
    let code := #[0xa7, 0x00, 0x04, 0xff, 0x04, 0x05, 0xa1, 0xff, 0xfd]
    (x.execute? 5 code).map Execution.outcome = some (.completed ⟨0, .halted⟩) ∧
      ∃ on n steps last, (x.setDebug true).execute? 5 code = some on ∧
        on.events = .executing 9 ⟨2, 0⟩ :: (steps.map .step ++ [on.outcome.event]) ∧
        Runs code (.start (.empty 2) 0) n steps on.outcome on.executor.stack ∧
        Leads code 0 [] steps last := by
  have hends : ((ofLimits ⟨2, 0⟩).execute? 5
      #[0xa7, 0x00, 0x04, 0xff, 0x04, 0x05, 0xa1, 0xff, 0xfd]).isSome := rfl
  obtain ⟨e, he⟩ := Option.isSome_iff_exists.1 hends
  obtain ⟨-, on, -, hon, -, -, -, n, steps, hevents, hruns, ⟨last, hleads, -⟩, -⟩ :=
    trace_of_execute? he
  exact ⟨rfl, on, n, steps, last, hon, hevents, hruns, hleads⟩

end Executor

end StackMachine
