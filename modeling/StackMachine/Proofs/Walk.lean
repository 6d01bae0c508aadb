import Mathlib.Algebra.Ring.Nat
import StackMachine.Proofs.Instruction.Decoding
import StackMachine.Walk

/-!
# Walks over instructions

`laidOut` puts instructions one behind the other. A walk that starts where the bytes of a list of
encodable instructions begin, and where the code ends behind them, finds these instructions laid
out and nothing else (`walkFrom_eq_laidOut`); and a walk without an error has gone over the bytes
of the instructions that it found, up to the end of the code (`holdsAt_of_walkFrom`).
-/

namespace StackMachine

/-! ### Instructions one behind the other -/

/-- Instructions one behind the other, from an offset on. -/
def laidOut : (start : Nat) → List Instruction → List Located
  | _, [] => []
  | start, i :: is =>
    { instruction := i, start, stop := start + i.size } :: laidOut (start + i.size) is

/-- How many bytes instructions take. -/
def totalSize (is : List Instruction) : Nat := (is.map Instruction.size).sum

@[simp] theorem totalSize_nil : totalSize [] = 0 := rfl

@[simp] theorem totalSize_cons (i : Instruction) (is : List Instruction) :
    totalSize (i :: is) = i.size + totalSize is := by
  simp [totalSize]

theorem totalSize_append (is js : List Instruction) :
    totalSize (is ++ js) = totalSize is + totalSize js := by
  simp [totalSize]

theorem length_flatMap_bytes (is : List Instruction) :
    (is.flatMap Instruction.bytes).length = totalSize is := by
  induction is with
  | nil => rfl
  | cons i is ih =>
    rw [List.flatMap_cons, List.length_append, ih, Instruction.length_bytes, totalSize_cons]

@[simp] theorem length_laidOut (start : Nat) (is : List Instruction) :
    (laidOut start is).length = is.length := by
  induction is generalizing start with
  | nil => rfl
  | cons i is ih => simp [laidOut, ih]

/-- Each instruction stands behind all the bytes of those in front of it. -/
theorem getElem?_laidOut (start : Nat) (is : List Instruction) (k : Nat) :
    (laidOut start is)[k]? = is[k]?.map fun i =>
      { instruction := i
        start := start + totalSize (is.take k)
        stop := start + totalSize (is.take k) + i.size } := by
  induction is generalizing start k with
  | nil => simp [laidOut]
  | cons i is ih =>
    cases k with
    | zero => simp [laidOut]
    | succ k => simp [laidOut, ih, Nat.add_assoc]

/-- Where instructions stand in a code, each of them stands where it is laid out. -/
theorem instructionAt_of_mem_laidOut {code : Code} {start : Nat} {is : List Instruction}
    (hi : ∀ i ∈ is, i.Encodable) (hb : HoldsAt code start (is.flatMap Instruction.bytes))
    {l : Located} (hl : l ∈ laidOut start is) : InstructionAt code l.start l.instruction := by
  induction is generalizing start with
  | nil => cases hl
  | cons i is ih =>
    rw [List.flatMap_cons, holdsAt_append, Instruction.length_bytes] at hb
    rcases List.mem_cons.1 hl with rfl | hl
    · exact ⟨hi i (.head _), hb.1⟩
    · exact ih (fun j hj => hi j (.tail _ hj)) hb.2 hl

/-- Behind an instruction that is laid out there is the next one, if it is not the last. -/
theorem next_of_mem_laidOut {start : Nat} {is : List Instruction} {l : Located}
    (hl : l ∈ laidOut start is) :
    l.start + l.instruction.size = start + totalSize is ∨
      ∃ next ∈ laidOut start is, next.start = l.start + l.instruction.size := by
  induction is generalizing start with
  | nil => cases hl
  | cons i is ih =>
    rw [totalSize_cons, ← Nat.add_assoc]
    rcases List.mem_cons.1 hl with rfl | hl
    · cases is with
      | nil => exact .inl rfl
      | cons j is => exact .inr ⟨_, .tail _ (.head _), rfl⟩
    · rcases ih hl with h | ⟨next, hn, h⟩
      · exact .inl h
      · exact .inr ⟨next, .tail _ hn, h⟩

/-- What a walk reports where it finds an instruction. -/
def Located.item (l : Located) : Item := { offset := l.start, result := .ok l }

/-! ### One item of a walk -/

theorem walkFrom_of_le {c : Cursor} (h : c.code.size ≤ c.pos) : walkFrom c = [] := by
  rw [walkFrom, if_pos]
  simp [Cursor.atEnd, Cursor.remaining, h]

theorem walkFrom_of_lt {c : Cursor} (h : c.pos < c.code.size) :
    walkFrom c =
      match c.instruction with
      | (.ok i, c') =>
        { offset := c.pos, result := .ok { instruction := i, start := c.pos, stop := c'.pos } } ::
          walkFrom c'
      | (.error (.unknownOpcode b), c') =>
        { offset := c.pos, result := .error (.unknownOpcode b) } :: walkFrom c'
      | (.error e, _) => [{ offset := c.pos, result := .error e }] := by
  have hn : ¬ c.atEnd := by
    simp only [Cursor.atEnd, Cursor.remaining, beq_iff_eq]
    omega
  rw [walkFrom, if_neg hn]
  split <;> simp_all

theorem walkFrom_of_instructionAt {code : Code} {pos : Nat} {i : Instruction}
    (h : InstructionAt code pos i) :
    walkFrom { code, pos } =
      Located.item { instruction := i, start := pos, stop := pos + i.size } ::
        walkFrom { code, pos := pos + i.size } := by
  rw [walkFrom_of_lt h.lt_size, h.read]
  rfl

/-! ### Walks without an error -/

/-- A walk over the bytes of instructions finds the instructions. -/
theorem walkFrom_eq_laidOut {code : Code} {pos : Nat} {is : List Instruction}
    (hi : ∀ i ∈ is, i.Encodable) (hb : HoldsAt code pos (is.flatMap Instruction.bytes))
    (hs : code.size = pos + totalSize is) :
    walkFrom { code, pos } = (laidOut pos is).map Located.item := by
  induction is generalizing pos with
  | nil => exact walkFrom_of_le (Nat.le_of_eq hs)
  | cons i is ih =>
    rw [List.flatMap_cons, holdsAt_append, Instruction.length_bytes] at hb
    rw [totalSize_cons, ← Nat.add_assoc] at hs
    rw [walkFrom_of_instructionAt ⟨hi i (.head _), hb.1⟩,
      ih (fun j hj => hi j (.tail _ hj)) hb.2 hs]
    rfl

/-- A walk that finds instructions only has gone over their bytes to the end of the code. -/
theorem holdsAt_of_walkFrom {code : Code} {pos : Nat} {ls : List Located} (hpos : pos ≤ code.size)
    (h : (walkFrom { code, pos }).map Item.result = ls.map .ok) :
    (∀ l ∈ ls, l.instruction.Encodable) ∧
      HoldsAt code pos ((ls.map Located.instruction).flatMap Instruction.bytes) ∧
      code.size = pos + totalSize (ls.map Located.instruction) := by
  induction ls generalizing pos with
  | nil =>
    have hle : code.size ≤ pos := by
      apply Nat.le_of_not_lt
      intro hlt
      rw [walkFrom_of_lt hlt] at h
      split at h <;> cases h
    exact ⟨by simp, by simp, Nat.le_antisymm hle hpos⟩
  | cons l ls ih =>
    have hlt : pos < code.size := by
      apply Nat.lt_of_not_le
      intro hle
      rw [walkFrom_of_le hle] at h
      cases h
    rcases Cursor.instruction_cases { code, pos } with
      ⟨hle, -⟩ | ⟨b, -, -, e⟩ | ⟨op, -, -, e⟩ | ⟨i, hi, -⟩
    · exact absurd hlt (Nat.not_lt_of_le hle)
    · rw [walkFrom_of_lt hlt, e] at h
      cases h
    · rw [walkFrom_of_lt hlt, e] at h
      cases h
    · rw [walkFrom_of_instructionAt hi, List.map_cons, List.map_cons, List.cons.injEq] at h
      obtain ⟨hl, hls⟩ := h
      cases hl
      obtain ⟨henc, hb, hs⟩ := ih hi.stop_le_size hls
      refine ⟨List.forall_mem_cons.2 ⟨hi.1, henc⟩, ?_, ?_⟩
      · rw [List.map_cons, List.flatMap_cons, holdsAt_append, Instruction.length_bytes]
        exact ⟨hi.2, hb⟩
      · rw [hs, List.map_cons, totalSize_cons, Nat.add_assoc]

end StackMachine
