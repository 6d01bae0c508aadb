import StackMachine.Proofs.Instruction.Codec
import StackMachine.Proofs.Machine.Log
import StackMachine.Proofs.Value

/-!
# Expressions in postfix form

An expression over literals is computed by the instructions of its nodes in postorder. Wherever they
stand in a code and whatever lies on the stack below, they leave its value on top
(`Machine.exists_steps`), or they stop at the first division by zero
(`Machine.exists_turn_divisionByZero`); and they overflow the stack if there is less room than the
expression needs (`Machine.exists_turn_stackOverflow`). All three are by induction on the
expression: the code of a part is followed by more code, and the right operand is computed on top of
the left one, so the position and the stack are arbitrary in them.
-/

namespace StackMachine

/-! ### Expressions -/

/-- The instruction that a literal is written with. -/
inductive LiteralForm where
  /-- A constant that the opcode holds. -/
  | iconst
  /-- A number of one byte. -/
  | bipush
  /-- A number of two bytes. -/
  | sipush
  deriving Repr, DecidableEq

/-- The numbers that a form of literals has room for. -/
def LiteralForm.Fits : LiteralForm → Int16 → Prop
  | .iconst, n => -1 ≤ n.toInt ∧ n.toInt ≤ 5
  | .bipush, n => -128 ≤ n.toInt ∧ n.toInt ≤ 127
  | .sipush, _ => True

instance (form : LiteralForm) (n : Int16) : Decidable (form.Fits n) := by
  cases form <;> unfold LiteralForm.Fits <;> infer_instance

/-- A number of 16 bits in a form that has room for it. -/
structure Literal where
  number : Int16
  form : LiteralForm
  fits : form.Fits number
  deriving Repr, DecidableEq

/-- The instruction that pushes a literal. -/
def Literal.instruction (l : Literal) : Instruction :=
  match l.form with
  | .iconst => .iconst l.number.toInt8
  | .bipush => .bipush l.number.toInt8
  | .sipush => .sipush l.number

/-- An arithmetic expression. -/
inductive Expr where
  | literal (l : Literal)
  | neg (operand : Expr)
  | binary (op : BinaryOp) (left right : Expr)
  deriving Repr, DecidableEq

namespace Expr

/-- The value of an expression, with its results wrapped around into 32 bits. The left operand is
computed first, and there is no value if a division by zero is met. -/
def value? : Expr → Option Int
  | .literal l => some l.number.toInt
  | .neg operand => operand.value?.map fun a => wrap (-a)
  | .binary op left right =>
    left.value?.bind fun a => right.value?.bind fun b =>
      if (op = .div ∨ op = .rem) ∧ b = 0 then none else some (wrap (op.exact a b))

/-- How many values lie on the stack at once while an expression is computed. -/
def need : Expr → Nat
  | .literal _ => 1
  | .neg operand => operand.need
  | .binary _ left right => max left.need (1 + right.need)

/-- The expression itself and its parts in postorder, each behind its own parts. -/
def nodes : Expr → List Expr
  | .literal l => [.literal l]
  | .neg operand => operand.nodes ++ [.neg operand]
  | .binary op left right => left.nodes ++ (right.nodes ++ [.binary op left right])

/-- The instruction of an expression behind those of its parts. -/
def own : Expr → Instruction
  | .literal l => l.instruction
  | .neg _ => .ineg
  | .binary op _ _ => .binary op

/-- The instructions of an expression in postorder. -/
def postorder (e : Expr) : List Instruction := e.nodes.map own

/-- The expression is a quotient or a remainder whose right operand is zero. -/
def DividesByZero : Expr → Prop
  | .binary op _ right => (op = .div ∨ op = .rem) ∧ right.value? = some 0
  | _ => False

instance : DecidablePred DividesByZero := fun e => by
  cases e <;> unfold DividesByZero <;> infer_instance

/-! ### What an expression is made of -/

variable {e : Expr}

theorem postorder_literal (l : Literal) : (literal l).postorder = [l.instruction] := rfl

theorem postorder_neg (operand : Expr) :
    (neg operand).postorder = operand.postorder ++ [.ineg] := by
  simp [postorder, nodes, own]

theorem postorder_binary (op : BinaryOp) (left right : Expr) :
    (binary op left right).postorder = left.postorder ++ (right.postorder ++ [.binary op]) := by
  simp [postorder, nodes, own]

theorem need_pos (e : Expr) : 0 < e.need := by
  induction e with
  | literal => exact Nat.one_pos
  | neg _ ih => exact ih
  | binary _ _ _ ihl _ => exact Nat.lt_of_lt_of_le ihl (Nat.le_max_left _ _)

/-- An expression has no value exactly when one of its nodes divides by zero. -/
theorem value?_eq_none_iff : e.value? = none ↔ ∃ n ∈ e.nodes, n.DividesByZero := by
  induction e with
  | literal => simp [value?, nodes, DividesByZero]
  | neg operand ih => simp [value?, nodes, DividesByZero, ih]
  | binary op left right ihl ihr =>
    have hnodes : (∃ n ∈ (binary op left right).nodes, n.DividesByZero) ↔
        left.value? = none ∨ right.value? = none ∨
          (op = .div ∨ op = .rem) ∧ right.value? = some 0 := by
      simp only [nodes, List.mem_append, List.mem_singleton, or_and_right, exists_or, ihl, ihr,
        exists_eq_left, DividesByZero]
    rw [hnodes]
    cases hl : left.value? with
    | none => simp [value?, hl]
    | some a =>
      cases hr : right.value? with
      | none => simp [value?, hl, hr]
      | some b => simp [value?, hl, hr]

theorem exists_value? (h : ∀ n ∈ e.nodes, ¬ n.DividesByZero) : ∃ a, e.value? = some a := by
  rw [← Option.ne_none_iff_exists', Ne, value?_eq_none_iff]
  rintro ⟨n, hn, hzero⟩
  exact h n hn hzero

end Expr

/-! ### Places in a list -/

/-- A place in an append lies in its left part or in its right one. -/
theorem eq_append_cons_cases {α : Type} {xs ys front back : List α} {x : α}
    (h : xs ++ ys = front ++ x :: back) :
    (∃ back', xs = front ++ x :: back') ∨
      ∃ front', front = xs ++ front' ∧ ys = front' ++ x :: back := by
  rcases List.append_eq_append_iff.1 h with ⟨front', hfront, hys⟩ | ⟨rest, hxs, hback⟩
  · exact .inr ⟨front', hfront, hys⟩
  · cases rest with
    | nil => exact .inr ⟨[], by simpa using hxs.symm, hback.symm⟩
    | cons y rest =>
      cases hback
      exact .inl ⟨rest, hxs⟩

theorem eq_of_singleton_eq_append_cons {α : Type} {x y : α} {front back : List α}
    (h : [y] = front ++ x :: back) : front = [] ∧ x = y ∧ back = [] := by
  cases front with
  | nil =>
    cases h
    exact ⟨rfl, rfl, rfl⟩
  | cons z front => simp at h

/-! ### Instructions that stand in a code -/

/-- Encodable instructions stand in a code from a position on, one behind the other. -/
def InstructionsAt (code : Code) (pos : Nat) (is : List Instruction) : Prop :=
  (∀ i ∈ is, i.Encodable) ∧ HoldsAt code pos (is.flatMap Instruction.bytes)

theorem instructionsAt_append {code : Code} {pos : Nat} {is js : List Instruction} :
    InstructionsAt code pos (is ++ js) ↔
      InstructionsAt code pos is ∧ InstructionsAt code (pos + totalSize is) js := by
  simp only [InstructionsAt, List.forall_mem_append, List.flatMap_append, holdsAt_append,
    length_flatMap_bytes]
  exact and_and_and_comm

theorem instructionsAt_singleton {code : Code} {pos : Nat} {i : Instruction} :
    InstructionsAt code pos [i] ↔ InstructionAt code pos i := by
  simp [InstructionsAt, InstructionAt]

/-! ### Literals -/

theorem toInt_toInt8 {n : Int16} (h : -128 ≤ n.toInt) (h' : n.toInt ≤ 127) :
    n.toInt8.toInt = n.toInt := by
  rw [Int16.toInt_toInt8]
  exact Int.bmod_eq_of_le (by omega) (by omega)

theorem toInt32_toInt8 {n : Int16} (h : -128 ≤ n.toInt) (h' : n.toInt ≤ 127) :
    n.toInt8.toInt32 = n.toInt32 := by
  rw [← Int32.toInt_inj, Int8.toInt_toInt32, Int16.toInt_toInt32, toInt_toInt8 h h']

namespace Literal

/-- In each form that has room for it a literal is pushed as its number. -/
theorem constant?_instruction (l : Literal) : l.instruction.constant? = some l.number.toInt32 := by
  obtain ⟨n, form, hfits⟩ := l
  cases form with
  | iconst =>
    obtain ⟨hlow, hhigh⟩ : -1 ≤ n.toInt ∧ n.toInt ≤ 5 := hfits
    have hn : n.toInt8.toInt32 = n.toInt32 := toInt32_toInt8 (by omega) (by omega)
    exact congrArg some hn
  | bipush => exact congrArg some (toInt32_toInt8 hfits.1 hfits.2)
  | sipush => rfl

theorem encodable_instruction (l : Literal) : l.instruction.Encodable := by
  obtain ⟨n, form, hfits⟩ := l
  cases form with
  | iconst =>
    obtain ⟨hlow, hhigh⟩ : -1 ≤ n.toInt ∧ n.toInt ≤ 5 := hfits
    have hn : n.toInt8.toInt = n.toInt := toInt_toInt8 (by omega) (by omega)
    show -1 ≤ n.toInt8.toInt ∧ n.toInt8.toInt ≤ 5
    rw [hn]
    exact ⟨hlow, hhigh⟩
  | bipush | sipush => trivial

end Literal

theorem Expr.encodable_of_mem_postorder {e : Expr} {i : Instruction} (hi : i ∈ e.postorder) :
    i.Encodable := by
  obtain ⟨n, -, rfl⟩ := List.mem_map.1 hi
  cases n with
  | literal l => exact l.encodable_instruction
  | neg | binary => trivial

namespace Machine

variable {code : Code} {pos room : Nat} {locals : Array Value} {e : Expr}

theorem next_of_performs {i : Instruction} {s s' : OperandStack} (hi : InstructionAt code pos i)
    (h : Performs i ⟨s, (pos + i.size : Nat), locals⟩ .next ⟨s', (pos + i.size : Nat), locals⟩) :
    Next code ⟨s, pos, locals⟩ ⟨s', (pos + i.size : Nat), locals⟩ :=
  ⟨i, turn_of_performs rfl hi h⟩

/-- The instructions of an expression that has a value put it on the stack, if there is room for as
many values as the expression needs. -/
theorem exists_steps (values : List Value) {a : Int} (hv : e.value? = some a)
    (hcode : InstructionsAt code pos e.postorder) (hneed : e.need ≤ room + 1) :
    ∃ v : Value, v.toInt = a ∧
      Steps code ⟨⟨values, room + 1⟩, pos, locals⟩
        ⟨⟨v :: values, room⟩, (pos + totalSize e.postorder : Nat), locals⟩ := by
  induction e generalizing a pos room values with
  | literal l =>
    cases hv
    rw [Expr.postorder_literal] at hcode ⊢
    exact ⟨l.number.toInt32, Int16.toInt_toInt32 _,
      .single (next_of_performs (instructionsAt_singleton.1 hcode)
        (.constant l.constant?_instruction rfl))⟩
  | neg operand ih =>
    obtain ⟨b, hb, rfl⟩ := Option.map_eq_some_iff.1 hv
    rw [Expr.postorder_neg] at hcode ⊢
    obtain ⟨hoperand, hneg⟩ := instructionsAt_append.1 hcode
    obtain ⟨v, rfl, hsteps⟩ := ih values hb hoperand hneed
    rw [totalSize_append, ← Nat.add_assoc]
    exact ⟨-v, Int32.toInt_neg v,
      hsteps.tail (next_of_performs (instructionsAt_singleton.1 hneg) (.negate rfl))⟩
  | binary op left right ihl ihr =>
    obtain ⟨b, hb, hv⟩ := Option.bind_eq_some_iff.1 hv
    obtain ⟨c, hc, hv⟩ := Option.bind_eq_some_iff.1 hv
    rw [Expr.postorder_binary] at hcode ⊢
    obtain ⟨hleft, hcode⟩ := instructionsAt_append.1 hcode
    obtain ⟨hright, hop⟩ := instructionsAt_append.1 hcode
    obtain ⟨hneedl, hneedr⟩ := Nat.max_le.1 hneed
    -- The right operand needs room of its own above the value of the left one.
    have hneedr : right.need ≤ room := by omega
    obtain ⟨room, rfl⟩ := Nat.exists_eq_add_one.2 (Nat.lt_of_lt_of_le right.need_pos hneedr)
    obtain ⟨x, rfl, hstepsl⟩ := ihl values hb hleft hneedl
    obtain ⟨y, rfl, hstepsr⟩ := ihr (x :: values) hc hright hneedr
    split at hv
    · cases hv
    · next hzero =>
      cases hv
      obtain ⟨v, heval, hv⟩ := BinaryOp.exists_eval? (a := x) hzero
      rw [totalSize_append, totalSize_append, ← Nat.add_assoc, ← Nat.add_assoc]
      exact ⟨v, hv,
        (hstepsl.trans hstepsr).tail
          (next_of_performs (instructionsAt_singleton.1 hop) (.binary heval rfl))⟩

/-- An expression that has a value overflows a stack that has less room than it needs. -/
theorem exists_turn_stackOverflow (values : List Value) {a : Int} (hv : e.value? = some a)
    (hcode : InstructionsAt code pos e.postorder) (hneed : room < e.need) :
    ∃ last after, Steps code ⟨⟨values, room⟩, pos, locals⟩ last ∧
      last.turn code = .faulted (.stackOverflow (values.length + room)) after := by
  induction e generalizing a pos room values with
  | literal l =>
    rw [Expr.postorder_literal] at hcode
    obtain rfl : room = 0 := Nat.lt_one_iff.1 hneed
    exact ⟨_, _, .refl, turn_of_fails rfl (instructionsAt_singleton.1 hcode)
      (.constantFull l.constant?_instruction rfl)⟩
  | neg operand ih =>
    obtain ⟨b, hb, -⟩ := Option.map_eq_some_iff.1 hv
    rw [Expr.postorder_neg] at hcode
    exact ih values hb (instructionsAt_append.1 hcode).1 hneed
  | binary op left right ihl ihr =>
    obtain ⟨b, hb, hv⟩ := Option.bind_eq_some_iff.1 hv
    obtain ⟨c, hc, -⟩ := Option.bind_eq_some_iff.1 hv
    rw [Expr.postorder_binary] at hcode
    obtain ⟨hleft, hcode⟩ := instructionsAt_append.1 hcode
    by_cases hneedl : room < left.need
    · exact ihl values hb hleft hneedl
    · obtain ⟨room, rfl⟩ := Nat.exists_eq_add_one.2
        (Nat.lt_of_lt_of_le left.need_pos (Nat.le_of_not_lt hneedl))
      have hneedr : room < right.need := by
        simp only [Expr.need] at hneed
        omega
      obtain ⟨x, -, hstepsl⟩ := exists_steps values hb hleft (Nat.le_of_not_lt hneedl)
      obtain ⟨last, after, hstepsr, ht⟩ :=
        ihr (x :: values) hc (instructionsAt_append.1 hcode).1 hneedr
      rw [List.length_cons, Nat.add_right_comm] at ht
      exact ⟨last, after, hstepsl.trans hstepsr, ht⟩

/-- An expression stops at the first of its nodes that divides by zero. -/
theorem exists_turn_divisionByZero (values : List Value) {front back : List Expr} {node : Expr}
    (hnodes : e.nodes = front ++ node :: back) (hnode : node.DividesByZero)
    (hfront : ∀ n ∈ front, ¬ n.DividesByZero) (hcode : InstructionsAt code pos e.postorder)
    (hneed : e.need ≤ room + 1) :
    ∃ last after, Steps code ⟨⟨values, room + 1⟩, pos, locals⟩ last ∧
      last.pc = (pos + totalSize (front.map Expr.own) : Nat) ∧
      last.turn code = .faulted .divisionByZero after := by
  induction e generalizing front back pos room values with
  | literal l =>
    obtain ⟨-, rfl, -⟩ := eq_of_singleton_eq_append_cons hnodes
    cases hnode
  | neg operand ih =>
    rw [Expr.postorder_neg] at hcode
    rcases eq_append_cons_cases hnodes with ⟨back', hoperand⟩ | ⟨front', -, hself⟩
    · exact ih values hoperand hfront (instructionsAt_append.1 hcode).1 hneed
    · obtain ⟨-, rfl, -⟩ := eq_of_singleton_eq_append_cons hself
      cases hnode
  | binary op left right ihl ihr =>
    rw [Expr.postorder_binary] at hcode
    obtain ⟨hleft, hcode⟩ := instructionsAt_append.1 hcode
    obtain ⟨hright, hop⟩ := instructionsAt_append.1 hcode
    obtain ⟨hneedl, hneedr⟩ := Nat.max_le.1 hneed
    rcases eq_append_cons_cases hnodes with ⟨back', hleft'⟩ | ⟨front', rfl, hrest⟩
    · exact ihl values hleft' hfront hleft hneedl
    obtain ⟨hfrontl, hfront⟩ := List.forall_mem_append.1 hfront
    obtain ⟨a, ha⟩ := Expr.exists_value? hfrontl
    obtain ⟨x, -, hstepsl⟩ := exists_steps values ha hleft hneedl
    have hneedr : right.need ≤ room := by omega
    obtain ⟨room, rfl⟩ := Nat.exists_eq_add_one.2 (Nat.lt_of_lt_of_le right.need_pos hneedr)
    rw [List.map_append, totalSize_append, ← Nat.add_assoc]
    rcases eq_append_cons_cases hrest with ⟨back', hright'⟩ | ⟨front', rfl, hself⟩
    · obtain ⟨last, after, hstepsr, hpc, ht⟩ := ihr (x :: values) hright' hfront hright hneedr
      exact ⟨last, after, hstepsl.trans hstepsr, hpc, ht⟩
    · obtain ⟨rfl, rfl, -⟩ := eq_of_singleton_eq_append_cons hself
      obtain ⟨hdiv, hzero⟩ := hnode
      obtain ⟨y, hy, hstepsr⟩ := exists_steps (x :: values) hzero hright hneedr
      obtain rfl : y = 0 := Int32.toInt_inj.1 hy
      rw [List.append_nil]
      exact ⟨_, _, hstepsl.trans hstepsr, rfl, turn_of_fails rfl (instructionsAt_singleton.1 hop)
        (.noResult (BinaryOp.eval?_eq_none_iff.2 ⟨hdiv, rfl⟩) rfl)⟩

end Machine

namespace Executor

open Machine Instruction

/-! ### Executions -/

section

variable {code : Code} {e : Expr} {limits : Limits}

/-- A machine starts at the first byte, with room for all that its stack may hold. -/
theorem start_eq {n : Nat} (h : limits.stackCapacity = n) :
    limits.start = ⟨⟨[], n⟩, (0 : Nat), limits.start.locals⟩ := by
  rw [← h]
  rfl

theorem exists_execute?_of_value {a : Int} (ha : e.value? = some a)
    (hcode : InstructionsAt code 0 (e.postorder ++ [.ireturn]))
    (hneed : e.need ≤ limits.stackCapacity) :
    ∃ turns x v, (ofLimits limits).execute? turns code = some x ∧ v.toInt = a ∧
      x.outcome = .completed ⟨v, .returned⟩ ∧ x.executor.stack = .empty limits.stackCapacity := by
  obtain ⟨hcode, hreturn⟩ := instructionsAt_append.1 hcode
  obtain ⟨room, hroom⟩ := Nat.exists_eq_add_one.2 (Nat.lt_of_lt_of_le e.need_pos hneed)
  rw [hroom] at hneed ⊢
  obtain ⟨v, hv, hsteps⟩ := exists_steps [] ha hcode hneed
  have hstop := turn_of_performs (m := ⟨⟨[v], room⟩, _, limits.start.locals⟩) rfl
    (instructionsAt_singleton.1 hreturn) (.ireturn rfl)
  rw [← start_eq hroom] at hsteps
  obtain ⟨turns, x, hx, houtcome, hstack⟩ := exists_execute?_iff_ends.2 ⟨_, hsteps, .stopped hstop⟩
  exact ⟨turns, x, v, hx, hv, houtcome, hstack⟩

theorem exists_execute?_of_dividesByZero {front back : List Expr} {node : Expr}
    (hnodes : e.nodes = front ++ node :: back) (hnode : node.DividesByZero)
    (hfront : ∀ n ∈ front, ¬ n.DividesByZero) (hcode : InstructionsAt code 0 e.postorder)
    (hneed : e.need ≤ limits.stackCapacity) :
    ∃ turns x, (ofLimits limits).execute? turns code = some x ∧
      x.outcome = .faulted ⟨.divisionByZero, totalSize (front.map Expr.own)⟩ := by
  obtain ⟨room, hroom⟩ := Nat.exists_eq_add_one.2 (Nat.lt_of_lt_of_le e.need_pos hneed)
  rw [hroom] at hneed
  obtain ⟨last, after, hsteps, hpc, ht⟩ :=
    exists_turn_divisionByZero [] hnodes hnode hfront hcode hneed
  rw [← start_eq hroom] at hsteps
  obtain ⟨turns, x, hx, houtcome, -⟩ := exists_execute?_iff_ends.2 ⟨last, hsteps, .faulted ht⟩
  rw [hpc, Nat.zero_add] at houtcome
  exact ⟨turns, x, hx, houtcome⟩

theorem exists_execute?_of_lt_need {a : Int} (ha : e.value? = some a)
    (hcode : InstructionsAt code 0 e.postorder) (hneed : limits.stackCapacity < e.need) :
    ∃ turns x pc, (ofLimits limits).execute? turns code = some x ∧
      x.outcome = .faulted ⟨.stackOverflow limits.stackCapacity, pc⟩ := by
  obtain ⟨last, after, hsteps, ht⟩ := exists_turn_stackOverflow [] ha hcode hneed
  rw [List.length_nil, Nat.zero_add] at ht
  rw [← start_eq rfl] at hsteps
  obtain ⟨turns, x, hx, houtcome, -⟩ := exists_execute?_iff_ends.2 ⟨last, hsteps, .faulted ht⟩
  exact ⟨turns, x, last.pc, hx, houtcome⟩

end

/-- **Postfix code computes its expression.** The instructions of an expression in postorder and a
return behind them have an encoding. On a stack that has room for the values that the expression
needs at once, it is executed to the value of the expression, and leaves nothing on the stack. If
the expression has no value, it faults with a division by zero instead, at the offset of the first
node in postorder that is a quotient or a remainder with a right operand of zero. On a smaller
stack, an expression that has a value overflows it. -/
theorem execute?_postorder (e : Expr) :
    ∃ code, encodeAll (e.postorder ++ [.ireturn]) = .ok code ∧
      (e.value? = none ↔ ∃ n ∈ e.nodes, n.DividesByZero) ∧
      ∀ limits : Limits,
        (e.need ≤ limits.stackCapacity →
          (∀ a, e.value? = some a →
            ∃ turns x v, (ofLimits limits).execute? turns code = some x ∧ v.toInt = a ∧
              x.outcome = .completed ⟨v, .returned⟩ ∧
              x.executor.stack = .empty limits.stackCapacity) ∧
          ∀ front node back, e.nodes = front ++ node :: back → node.DividesByZero →
            (∀ n ∈ front, ¬ n.DividesByZero) →
            ∃ turns x, (ofLimits limits).execute? turns code = some x ∧
              x.outcome = .faulted ⟨.divisionByZero, totalSize (front.map Expr.own)⟩) ∧
        (limits.stackCapacity < e.need → (∀ n ∈ e.nodes, ¬ n.DividesByZero) →
          ∃ turns x pc, (ofLimits limits).execute? turns code = some x ∧
            x.outcome = .faulted ⟨.stackOverflow limits.stackCapacity, pc⟩) := by
  have henc : ∀ i ∈ e.postorder ++ [.ireturn], i.Encodable := by
    rw [List.forall_mem_append]
    exact ⟨fun i => Expr.encodable_of_mem_postorder, by simp [Instruction.Encodable]⟩
  obtain ⟨code, hencode⟩ : ∃ code, encodeAll (e.postorder ++ [.ireturn]) = .ok code :=
    ⟨_, encodeAll_eq_ok_iff.2 ⟨henc, rfl⟩⟩
  have hcode : InstructionsAt code 0 (e.postorder ++ [.ireturn]) := by
    obtain ⟨-, rfl⟩ := encodeAll_eq_ok_iff.1 hencode
    exact ⟨henc, holdsAt_toArray _⟩
  have hpostorder : InstructionsAt code 0 e.postorder := (instructionsAt_append.1 hcode).1
  refine ⟨code, hencode, Expr.value?_eq_none_iff, ?_⟩
  intro limits
  refine ⟨fun hneed => ⟨?_, ?_⟩, ?_⟩
  · intro a ha
    exact exists_execute?_of_value ha hcode hneed
  · intro front node back hnodes hnode hfront
    exact exists_execute?_of_dividesByZero hnodes hnode hfront hpostorder hneed
  · intro hneed hnodes
    obtain ⟨a, ha⟩ := Expr.exists_value? hnodes
    exact exists_execute?_of_lt_need ha hpostorder hneed

/-- The difference of a quotient and a remainder needs a stack of three, and the remainder by a
difference that is zero stands at the ninth byte. -/
theorem execute?_postorder_difference :
    let number (n : Int16) : Expr := .literal ⟨n, .sipush, trivial⟩
    let two : Expr := .literal ⟨2, .iconst, by decide⟩
    let difference : Expr :=
      .binary .sub (.binary .div (number 7) (.neg two)) (.binary .rem (number 1000) (number 300))
    let zero : Expr := .binary .sub two two
    let remainder : Expr := .binary .rem (number 1000) zero
    let sum : Expr := .binary .add (number 5) remainder
    (∃ code, encodeAll (difference.postorder ++ [.ireturn]) = .ok code ∧
      (∃ turns x v, (ofLimits ⟨3, 0⟩).execute? turns code = some x ∧ v.toInt = -103 ∧
        x.outcome = .completed ⟨v, .returned⟩ ∧ x.executor.stack = .empty 3) ∧
      ∃ turns x pc, (ofLimits ⟨2, 0⟩).execute? turns code = some x ∧
        x.outcome = .faulted ⟨.stackOverflow 2, pc⟩) ∧
    ∃ code, encodeAll (sum.postorder ++ [.ireturn]) = .ok code ∧
      ∃ turns x, (ofLimits ⟨4, 0⟩).execute? turns code = some x ∧
        x.outcome = .faulted ⟨.divisionByZero, 9⟩ := by
  intro number two difference zero remainder sum
  obtain ⟨code, hcode, -, hlimits⟩ := execute?_postorder difference
  obtain ⟨code', hcode', -, hlimits'⟩ := execute?_postorder sum
  have hvalue : difference.value? = some (-103) := by decide
  have hzero : remainder.DividesByZero := by decide
  exact ⟨⟨code, hcode, ((hlimits ⟨3, 0⟩).1 (by decide)).1 _ hvalue,
      (hlimits ⟨2, 0⟩).2 (by decide) (by decide)⟩,
    code', hcode', ((hlimits' ⟨4, 0⟩).1 (by decide)).2
      [number 5, number 1000, two, two, zero] remainder [_] rfl hzero (by decide)⟩

end Executor

end StackMachine
