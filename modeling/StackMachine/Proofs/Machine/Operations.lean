import StackMachine.Machine.Basic

/-!
# What instructions do

The rules of the machine, one for each way in which an instruction can go. `Performs` are the ways
of carrying it out, `Fails` the ways in which it fails, with the machine that is left behind in
either case. Together they are what `Machine.execute` computes (`execute_eq_ok_iff`,
`execute_eq_error_iff`): so an instruction on a machine always goes in one of these ways, and in
one only.
-/

namespace StackMachine

/-! ### Kinds of instructions -/

namespace Instruction

/-- The constant that an instruction pushes. -/
def constant? : Instruction → Option Value
  | .iconst v | .bipush v => some v.toInt32
  | .sipush v => some v.toInt32
  | _ => none

/-- The index of the local variable that an instruction pushes. -/
def loaded? : Instruction → Option UInt8
  | .iload index | .iloadShort index => some index
  | _ => none

/-- The index of the local variable that an instruction pops into. -/
def stored? : Instruction → Option UInt8
  | .istore index | .istoreShort index => some index
  | _ => none

/-- How many operands an instruction pops. -/
def operandCount : Instruction → Nat
  | .binary _ | .ifIcmp .. => 2
  | .ineg | .ireturn | .istore _ | .istoreShort _ => 1
  | _ => 0

theorem operandCount_of_stored? {i : Instruction} {index : UInt8} (h : i.stored? = some index) :
    i.operandCount = 1 := by
  cases i <;> first | rfl | cases h

end Instruction

/-- The stack without its top values, at most as many as there are. -/
def OperandStack.drop (s : OperandStack) (n : Nat) : OperandStack :=
  { values := s.values.drop n, room := s.room + min n s.depth }

@[simp] theorem OperandStack.capacity_drop (s : OperandStack) (n : Nat) :
    (s.drop n).capacity = s.capacity := by
  simp only [capacity, depth, drop, List.length_drop]
  omega

namespace Machine

/-! ### Stack operations -/

theorem push_of_full {m : Machine} (v : Value) (h : m.stack.room = 0) :
    push v m = .error (.stackOverflow m.stack.capacity) m := by
  simp [push, OperandStack.push?, h]

theorem push_of_room {m : Machine} {values : List Value} {room : Nat} (v : Value)
    (h : m.stack = ⟨values, room + 1⟩) :
    push v m = .ok () { m with stack := ⟨v :: values, room⟩ } := by
  simp [push, OperandStack.push?, h]

theorem pop_of_nil {m : Machine} (h : m.stack.values = []) : pop m = .error .stackUnderflow m := by
  simp [pop, OperandStack.pop?, h]

theorem pop_of_cons {m : Machine} {v : Value} {values : List Value} {room : Nat}
    (h : m.stack = ⟨v :: values, room⟩) : pop m = .ok v { m with stack := ⟨values, room + 1⟩ } := by
  simp [pop, OperandStack.pop?, h]

theorem bind_of_ok {α β : Type} {x : Operation α} {f : α → Operation β} {a : α} {m m' : Machine}
    (h : x m = .ok a m') : (x >>= f) m = f a m' := by
  simp only [bind, EStateM.bind, h]

theorem bind_of_error {α β : Type} {x : Operation α} {f : α → Operation β} {kind : FaultKind}
    {m m' : Machine} (h : x m = .error kind m') : (x >>= f) m = .error kind m' := by
  simp only [bind, EStateM.bind, h]

theorem popPair_of_cons {m : Machine} {left right : Value} {values : List Value} {room : Nat}
    (h : m.stack = ⟨right :: left :: values, room⟩) :
    popPair m = .ok (left, right) { m with stack := ⟨values, room + 2⟩ } := by
  unfold popPair
  rw [bind_of_ok (pop_of_cons h), bind_of_ok (pop_of_cons rfl)]
  rfl

theorem popPair_of_short {m : Machine} (h : m.stack.depth < 2) :
    popPair m = .error .stackUnderflow { m with stack := m.stack.drop 2 } := by
  unfold popPair
  obtain ⟨⟨_ | ⟨v, _ | ⟨w, values⟩⟩, room⟩, pc, locals⟩ := m
  · rw [bind_of_error (pop_of_nil rfl)]
    rfl
  · rw [bind_of_ok (pop_of_cons rfl), bind_of_error (pop_of_nil rfl)]
    rfl
  · simp only [OperandStack.depth, List.length_cons] at h
    omega

/-! ### The rules -/

/-- The ways of carrying out an instruction on a machine whose program counter stands behind it:
what follows, and the machine afterwards. -/
inductive Performs : Instruction → Machine → Flow → Machine → Prop
  /-- Nothing happens. -/
  | nop {m : Machine} : Performs .nop m .next m
  /-- A constant is pushed. -/
  | constant {i : Instruction} {m : Machine} {v : Value} {values : List Value} {room : Nat}
      (hi : i.constant? = some v) (hs : m.stack = ⟨values, room + 1⟩) :
      Performs i m .next { m with stack := ⟨v :: values, room⟩ }
  /-- A local variable is pushed. -/
  | load {i : Instruction} {m : Machine} {index : UInt8} {v : Value} {values : List Value}
      {room : Nat} (hi : i.loaded? = some index) (hv : m.locals[index.toNat]? = some v)
      (hs : m.stack = ⟨values, room + 1⟩) :
      Performs i m .next { m with stack := ⟨v :: values, room⟩ }
  /-- A local variable is given the value on top. -/
  | store {i : Instruction} {m : Machine} {index : UInt8} {v : Value} {values : List Value}
      {room : Nat} (hi : i.stored? = some index) (hl : index.toNat < m.locals.size)
      (hs : m.stack = ⟨v :: values, room⟩) :
      Performs i m .next
        { m with stack := ⟨values, room + 1⟩, locals := m.locals.set index.toNat v hl }
  /-- Two values are replaced by the result of an operation. -/
  | binary {op : BinaryOp} {m : Machine} {left right v : Value} {values : List Value} {room : Nat}
      (hv : op.eval? left right = some v) (hs : m.stack = ⟨right :: left :: values, room⟩) :
      Performs (.binary op) m .next { m with stack := ⟨v :: values, room + 1⟩ }
  /-- The value on top is negated. -/
  | negate {m : Machine} {v : Value} {values : List Value} {room : Nat}
      (hs : m.stack = ⟨v :: values, room⟩) :
      Performs .ineg m .next { m with stack := ⟨-v :: values, room⟩ }
  /-- The comparison holds, and the branch is taken. -/
  | branchIf {cond : Comparison} {offset : Int16} {m : Machine} {left right : Value}
      {values : List Value} {room : Nat} (hc : cond.holds left right = true)
      (hs : m.stack = ⟨right :: left :: values, room⟩) :
      Performs (.ifIcmp cond offset) m .next
        { m with stack := ⟨values, room + 2⟩, pc := m.pc + offset.toInt - branchSize }
  /-- The comparison does not hold. -/
  | passIf {cond : Comparison} {offset : Int16} {m : Machine} {left right : Value}
      {values : List Value} {room : Nat} (hc : cond.holds left right = false)
      (hs : m.stack = ⟨right :: left :: values, room⟩) :
      Performs (.ifIcmp cond offset) m .next { m with stack := ⟨values, room + 2⟩ }
  /-- The branch is taken. -/
  | goto {offset : Int16} {m : Machine} :
      Performs (.goto offset) m .next { m with pc := m.pc + offset.toInt - branchSize }
  /-- The value on top is returned. -/
  | ireturn {m : Machine} {v : Value} {values : List Value} {room : Nat}
      (hs : m.stack = ⟨v :: values, room⟩) :
      Performs .ireturn m (.stop { value := v, termination := .returned })
        { m with stack := ⟨values, room + 1⟩ }
  /-- The run ends without a value. -/
  | returnVoid {m : Machine} :
      Performs .returnVoid m (.stop { value := 0, termination := .returnedVoid }) m
  /-- The run is stopped. -/
  | halt {m : Machine} : Performs .halt m (.stop { value := 0, termination := .halted }) m

/-- The ways in which an instruction fails on a machine: the kind of the fault, and the machine
that is left behind. -/
inductive Fails : Instruction → Machine → FaultKind → Machine → Prop
  /-- There is no room for a constant. -/
  | constantFull {i : Instruction} {m : Machine} {v : Value} (hi : i.constant? = some v)
      (hr : m.stack.room = 0) : Fails i m (.stackOverflow m.stack.capacity) m
  /-- There is no such local variable, whether or not there is room for it. -/
  | loadOutside {i : Instruction} {m : Machine} {index : UInt8} (hi : i.loaded? = some index)
      (hl : m.locals.size ≤ index.toNat) : Fails i m (.localOutOfBounds index m.locals.size) m
  /-- There is no room for a local variable. -/
  | loadFull {i : Instruction} {m : Machine} {index : UInt8} (hi : i.loaded? = some index)
      (hl : index.toNat < m.locals.size) (hr : m.stack.room = 0) :
      Fails i m (.stackOverflow m.stack.capacity) m
  /-- There is no such local variable, and the value for it is gone. -/
  | storeOutside {i : Instruction} {m : Machine} {index : UInt8} (hi : i.stored? = some index)
      (hd : 0 < m.stack.depth) (hl : m.locals.size ≤ index.toNat) :
      Fails i m (.localOutOfBounds index m.locals.size) { m with stack := m.stack.drop 1 }
  /-- There are too few operands, and those there are are gone. -/
  | underflow {i : Instruction} {m : Machine} (hd : m.stack.depth < i.operandCount) :
      Fails i m .stackUnderflow { m with stack := m.stack.drop i.operandCount }
  /-- The operation has no result, and its operands are gone. -/
  | noResult {op : BinaryOp} {m : Machine} {left right : Value} {values : List Value}
      (hv : op.eval? left right = none) (hs : m.stack.values = right :: left :: values) :
      Fails (.binary op) m .divisionByZero { m with stack := m.stack.drop 2 }

/-! ### One operation at a time -/

theorem getLocal_of_some {m : Machine} {index : UInt8} {v : Value}
    (h : m.locals[index.toNat]? = some v) : getLocal index m = .ok v m := by
  simp [getLocal, h]

theorem getLocal_of_le {m : Machine} {index : UInt8} (h : m.locals.size ≤ index.toNat) :
    getLocal index m = .error (.localOutOfBounds index m.locals.size) m := by
  simp [getLocal, Array.getElem?_eq_none h]

theorem setLocal_of_lt {m : Machine} {index : UInt8} (v : Value) (h : index.toNat < m.locals.size) :
    setLocal index v m = .ok () { m with locals := m.locals.set index.toNat v h } := by
  simp [setLocal, h, Array.setIfInBounds]

theorem setLocal_of_le {m : Machine} {index : UInt8} (v : Value) (h : m.locals.size ≤ index.toNat) :
    setLocal index v m = .error (.localOutOfBounds index m.locals.size) m :=
  if_neg (Nat.not_lt_of_le h)

theorem load_of_room {m : Machine} {index : UInt8} {v : Value} {values : List Value} {room : Nat}
    (hv : m.locals[index.toNat]? = some v) (hs : m.stack = ⟨values, room + 1⟩) :
    load index m = .ok () { m with stack := ⟨v :: values, room⟩ } :=
  (bind_of_ok (getLocal_of_some hv)).trans (push_of_room v hs)

theorem load_of_full {m : Machine} {index : UInt8} (hl : index.toNat < m.locals.size)
    (hr : m.stack.room = 0) : load index m = .error (.stackOverflow m.stack.capacity) m :=
  (bind_of_ok (getLocal_of_some (Array.getElem?_eq_getElem hl))).trans (push_of_full _ hr)

theorem store_of_lt {m : Machine} {index : UInt8} {v : Value} {values : List Value} {room : Nat}
    (hl : index.toNat < m.locals.size) (hs : m.stack = ⟨v :: values, room⟩) :
    store index m =
      .ok () { m with stack := ⟨values, room + 1⟩, locals := m.locals.set index.toNat v hl } := by
  refine (bind_of_ok (pop_of_cons hs)).trans ?_
  exact setLocal_of_lt (m := { m with stack := ⟨values, room + 1⟩ }) v hl

theorem store_of_le {m : Machine} {index : UInt8} {v : Value} {values : List Value} {room : Nat}
    (hl : m.locals.size ≤ index.toNat) (hs : m.stack = ⟨v :: values, room⟩) :
    store index m =
      .error (.localOutOfBounds index m.locals.size) { m with stack := ⟨values, room + 1⟩ } := by
  refine (bind_of_ok (pop_of_cons hs)).trans ?_
  exact setLocal_of_le v hl

theorem binary_of_cons {op : BinaryOp} {m : Machine} {left right : Value} {values : List Value}
    {room : Nat} (hs : m.stack = ⟨right :: left :: values, room⟩) :
    binary op m =
      match op.eval? left right with
      | some v => .ok () { m with stack := ⟨v :: values, room + 1⟩ }
      | none => .error .divisionByZero { m with stack := ⟨values, room + 2⟩ } := by
  refine (bind_of_ok (popPair_of_cons hs)).trans ?_
  cases hv : op.eval? left right with
  | some v =>
    simp only [hv]
    exact push_of_room v rfl
  | none =>
    simp only [hv]
    rfl

theorem negate_of_cons {m : Machine} {v : Value} {values : List Value} {room : Nat}
    (hs : m.stack = ⟨v :: values, room⟩) :
    negate m = .ok () { m with stack := ⟨-v :: values, room⟩ } :=
  (bind_of_ok (pop_of_cons hs)).trans (push_of_room _ rfl)

theorem branchIf_of_cons {cond : Comparison} {offset : Int} {m : Machine} {left right : Value}
    {values : List Value} {room : Nat} (hs : m.stack = ⟨right :: left :: values, room⟩) :
    branchIf cond offset m = .ok ()
      { m with
        stack := ⟨values, room + 2⟩
        pc := if cond.holds left right then m.pc + offset - branchSize else m.pc } := by
  refine (bind_of_ok (popPair_of_cons hs)).trans ?_
  dsimp only
  split <;> rfl

/-! ### The rules are what is computed -/

theorem execute_of_constant? {i : Instruction} {v : Value} (h : i.constant? = some v) :
    execute i = (do push v; return .next) := by
  cases i <;> cases h <;> rfl

theorem execute_of_loaded? {i : Instruction} {index : UInt8} (h : i.loaded? = some index) :
    execute i = (do load index; return .next) := by
  cases i <;> cases h <;> rfl

theorem execute_of_stored? {i : Instruction} {index : UInt8} (h : i.stored? = some index) :
    execute i = (do store index; return .next) := by
  cases i <;> cases h <;> rfl

theorem execute_of_performs {i : Instruction} {m m' : Machine} {flow : Flow}
    (h : Performs i m flow m') : execute i m = .ok flow m' := by
  cases h with
  | nop | goto | returnVoid | halt => rfl
  | constant hi hs =>
    exact (congrFun (execute_of_constant? hi) m).trans (bind_of_ok (push_of_room _ hs))
  | load hi hv hs =>
    exact (congrFun (execute_of_loaded? hi) m).trans (bind_of_ok (load_of_room hv hs))
  | store hi hl hs =>
    exact (congrFun (execute_of_stored? hi) m).trans (bind_of_ok (store_of_lt hl hs))
  | binary hv hs => exact bind_of_ok ((binary_of_cons hs).trans (by rw [hv]))
  | negate hs => exact bind_of_ok (negate_of_cons hs)
  | branchIf hc hs => exact bind_of_ok ((branchIf_of_cons hs).trans (by rw [if_pos hc]))
  | passIf hc hs => exact bind_of_ok ((branchIf_of_cons hs).trans (by rw [hc]; rfl))
  | ireturn hs => exact bind_of_ok (pop_of_cons hs)

/-- With too few operands an instruction takes what there is and fails. -/
theorem execute_of_short {i : Instruction} {m : Machine} (h : m.stack.depth < i.operandCount) :
    execute i m = .error .stackUnderflow { m with stack := m.stack.drop i.operandCount } := by
  have empty (h : m.stack.depth < 1) :
      pop m = .error .stackUnderflow { m with stack := m.stack.drop 1 } := by
    obtain ⟨⟨_ | ⟨v, values⟩, room⟩, pc, locals⟩ := m
    · rfl
    · simp [OperandStack.depth] at h
  cases i with
  | binary op => exact bind_of_error (bind_of_error (popPair_of_short h))
  | ifIcmp cond offset => exact bind_of_error (bind_of_error (popPair_of_short h))
  | ineg => exact bind_of_error (bind_of_error (empty h))
  | istore index | istoreShort index => exact bind_of_error (bind_of_error (empty h))
  | ireturn => exact bind_of_error (empty h)
  | _ => cases h

theorem execute_of_fails {i : Instruction} {m m' : Machine} {kind : FaultKind}
    (h : Fails i m kind m') : execute i m = .error kind m' := by
  cases h with
  | constantFull hi hr =>
    exact (congrFun (execute_of_constant? hi) m).trans (bind_of_error (push_of_full _ hr))
  | loadOutside hi hl =>
    exact (congrFun (execute_of_loaded? hi) m).trans
      (bind_of_error (bind_of_error (getLocal_of_le hl)))
  | loadFull hi hl hr =>
    exact (congrFun (execute_of_loaded? hi) m).trans (bind_of_error (load_of_full hl hr))
  | storeOutside hi hd hl =>
    obtain ⟨⟨_ | ⟨v, values⟩, room⟩, pc, locals⟩ := m
    · cases hd
    · exact (congrFun (execute_of_stored? hi) _).trans (bind_of_error (store_of_le hl rfl))
  | underflow hd => exact execute_of_short hd
  | noResult hv hs =>
    obtain ⟨⟨values, room⟩, pc, locals⟩ := m
    cases hs
    exact bind_of_error ((binary_of_cons rfl).trans (by rw [hv]; rfl))

/-- There is a rule for an instruction on a machine. -/
def Goes (i : Instruction) (m : Machine) : Prop :=
  (∃ flow m', Performs i m flow m') ∨ ∃ kind m', Fails i m kind m'

theorem goes_of_constant? {i : Instruction} {v : Value} (hi : i.constant? = some v) (m : Machine) :
    Goes i m := by
  obtain ⟨⟨values, _ | room⟩, pc, locals⟩ := m
  · exact .inr ⟨_, _, .constantFull hi rfl⟩
  · exact .inl ⟨_, _, .constant hi rfl⟩

theorem goes_of_loaded? {i : Instruction} {index : UInt8} (hi : i.loaded? = some index)
    (m : Machine) : Goes i m := by
  obtain ⟨⟨values, room⟩, pc, locals⟩ := m
  by_cases hl : index.toNat < locals.size
  · cases room with
    | zero => exact .inr ⟨_, _, .loadFull hi hl rfl⟩
    | succ room => exact .inl ⟨_, _, .load hi (Array.getElem?_eq_getElem hl) rfl⟩
  · exact .inr ⟨_, _, .loadOutside hi (Nat.le_of_not_lt hl)⟩

theorem goes_of_stored? {i : Instruction} {index : UInt8} (hi : i.stored? = some index)
    (m : Machine) : Goes i m := by
  obtain ⟨⟨_ | ⟨v, values⟩, room⟩, pc, locals⟩ := m
  · refine .inr ⟨_, _, .underflow ?_⟩
    rw [Instruction.operandCount_of_stored? hi]
    exact Nat.zero_lt_one
  · by_cases hl : index.toNat < locals.size
    · exact .inl ⟨_, _, .store hi hl rfl⟩
    · exact .inr ⟨_, _, .storeOutside hi (Nat.succ_pos _) (Nat.le_of_not_lt hl)⟩

/-- An instruction can be carried out or fails, whatever the machine. -/
theorem goes (i : Instruction) (m : Machine) : Goes i m := by
  cases i with
  | iconst v | bipush v | sipush v => exact goes_of_constant? rfl m
  | iload index | iloadShort index => exact goes_of_loaded? rfl m
  | istore index | istoreShort index => exact goes_of_stored? rfl m
  | nop => exact .inl ⟨_, _, .nop⟩
  | goto offset => exact .inl ⟨_, _, .goto⟩
  | returnVoid => exact .inl ⟨_, _, .returnVoid⟩
  | halt => exact .inl ⟨_, _, .halt⟩
  | binary op =>
    obtain ⟨⟨_ | ⟨right, _ | ⟨left, values⟩⟩, room⟩, pc, locals⟩ := m
    · exact .inr ⟨_, _, .underflow Nat.zero_lt_two⟩
    · exact .inr ⟨_, _, .underflow Nat.one_lt_two⟩
    · cases hv : op.eval? left right with
      | some v => exact .inl ⟨_, _, .binary hv rfl⟩
      | none => exact .inr ⟨_, _, .noResult hv rfl⟩
  | ifIcmp cond offset =>
    obtain ⟨⟨_ | ⟨right, _ | ⟨left, values⟩⟩, room⟩, pc, locals⟩ := m
    · exact .inr ⟨_, _, .underflow Nat.zero_lt_two⟩
    · exact .inr ⟨_, _, .underflow Nat.one_lt_two⟩
    · cases hc : cond.holds left right with
      | true => exact .inl ⟨_, _, .branchIf hc rfl⟩
      | false => exact .inl ⟨_, _, .passIf hc rfl⟩
  | ineg =>
    obtain ⟨⟨_ | ⟨v, values⟩, room⟩, pc, locals⟩ := m
    · exact .inr ⟨_, _, .underflow Nat.zero_lt_one⟩
    · exact .inl ⟨_, _, .negate rfl⟩
  | ireturn =>
    obtain ⟨⟨_ | ⟨v, values⟩, room⟩, pc, locals⟩ := m
    · exact .inr ⟨_, _, .underflow Nat.zero_lt_one⟩
    · exact .inl ⟨_, _, .ireturn rfl⟩

theorem execute_eq_ok_iff {i : Instruction} {m m' : Machine} {flow : Flow} :
    execute i m = .ok flow m' ↔ Performs i m flow m' := by
  constructor
  · intro h
    rcases goes i m with ⟨flow', m'', hp⟩ | ⟨kind, m'', hf⟩
    · cases h.symm.trans (execute_of_performs hp)
      exact hp
    · cases h.symm.trans (execute_of_fails hf)
  · exact execute_of_performs

theorem execute_eq_error_iff {i : Instruction} {m m' : Machine} {kind : FaultKind} :
    execute i m = .error kind m' ↔ Fails i m kind m' := by
  constructor
  · intro h
    rcases goes i m with ⟨flow, m'', hp⟩ | ⟨kind', m'', hf⟩
    · cases h.symm.trans (execute_of_performs hp)
    · cases h.symm.trans (execute_of_fails hf)
      exact hf
  · exact execute_of_fails

end Machine

end StackMachine
