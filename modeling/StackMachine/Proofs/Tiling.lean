import StackMachine.Proofs.Walk

/-!
# Walks over any code

Whatever its bytes are, a walk goes over a code from its first byte to its last, and each item of it
is what is decoded at its offset. `Tiles` says so of a list of items: every item starts where the
one before it stops, and the last one stops at the end of the code. All that is said of walks over
codes with errors in them follows from it by induction on the items, and not on the bytes.
-/

namespace StackMachine

/-- Where the walk goes on behind an item: behind the instruction, behind the byte that is no
opcode, or, where an operand is truncated, at the end of the code. -/
def Item.stop (length : Nat) (item : Item) : Nat :=
  match item.result with
  | .ok l => l.stop
  | .error (.unknownOpcode _) => item.offset + 1
  | .error _ => length

/-- The bytes of a code that an item takes up. -/
def Item.bytes (code : Code) (item : Item) : List UInt8 :=
  (code.extract item.offset (item.stop code.size)).toList

/-- The items go over the code from a position to its end: each of them is what is decoded at its
offset, and they stand one behind the other. -/
inductive Tiles (code : Code) : Nat → List Item → Prop
  /-- There is nothing to go over. -/
  | nil : Tiles code code.size []
  /-- The other items go on where the first one stops. -/
  | cons {item : Item} {items : List Item}
      (hr : item.result = (Cursor.located { code, pos := item.offset }).1)
      (hlt : item.offset < item.stop code.size)
      (h : Tiles code (item.stop code.size) items) : Tiles code item.offset (item :: items)

/-- Inside the code a walk finds an item, stops behind it inside the code, and goes on there. -/
theorem exists_walkFrom_eq_cons {code : Code} {pos : Nat} (hpos : pos < code.size) :
    ∃ item : Item, walkFrom { code, pos } =
        item :: walkFrom { code, pos := item.stop code.size } ∧
      item.offset = pos ∧ item.result = (Cursor.located { code, pos }).1 ∧
      pos < item.stop code.size ∧ item.stop code.size ≤ code.size := by
  rw [walkFrom_of_lt hpos, Cursor.located]
  rcases Cursor.instruction_cases { code, pos } with
    ⟨hle, -⟩ | ⟨b, -, -, e⟩ | ⟨op, -, -, e⟩ | ⟨i, hi, e⟩
  · exact absurd hpos (Nat.not_lt_of_le hle)
  · rw [e]
    exact ⟨_, rfl, rfl, rfl, Nat.lt_succ_self pos, hpos⟩
  · rw [e]
    refine ⟨{ offset := pos, result := .error (.truncatedOperand op _) }, ?_, rfl, rfl, hpos,
      Nat.le_refl _⟩
    exact congrArg _ (walkFrom_of_le (Nat.le_refl code.size)).symm
  · rw [e]
    have hsize : 0 < i.size := Nat.add_pos_left Nat.one_pos _
    exact ⟨_, rfl, rfl, rfl, Nat.lt_add_of_pos_right hsize, hi.stop_le_size⟩

/-- **A walk goes over the whole code** from where it starts. -/
theorem tiles_walkFrom {code : Code} {pos : Nat} (hpos : pos ≤ code.size) :
    Tiles code pos (walkFrom { code, pos }) := by
  induction h : code.size - pos using Nat.strong_induction_on generalizing pos with
  | _ left ih =>
    rcases Nat.eq_or_lt_of_le hpos with rfl | hlt
    · rw [walkFrom_of_le (Nat.le_refl _)]
      exact .nil
    · obtain ⟨item, hwalk, rfl, hr, hstop, hle⟩ := exists_walkFrom_eq_cons hlt
      rw [hwalk]
      exact .cons hr hstop (ih _ (by omega) hle rfl)

theorem tiles_walk (code : Code) : Tiles code 0 (walk code) := tiles_walkFrom (Nat.zero_le _)

namespace Tiles

variable {code : Code} {pos : Nat} {items : List Item}

theorem le_size (h : Tiles code pos items) : pos ≤ code.size := by
  induction h with
  | nil => exact Nat.le_refl _
  | cons _ hlt _ ih => exact Nat.le_of_lt (Nat.lt_of_lt_of_le hlt ih)

/-- An item is what is decoded at its offset, which lies inside the code. -/
theorem of_mem (h : Tiles code pos items) {item : Item} (hm : item ∈ items) :
    item.result = (Cursor.located { code, pos := item.offset }).1 ∧ pos ≤ item.offset ∧
      item.offset < item.stop code.size ∧ item.stop code.size ≤ code.size := by
  induction h with
  | nil => cases hm
  | cons hr hlt h ih =>
    rcases List.mem_cons.1 hm with rfl | hm
    · exact ⟨hr, Nat.le_refl _, hlt, h.le_size⟩
    · obtain ⟨hr', hle, hrest⟩ := ih hm
      exact ⟨hr', Nat.le_of_lt (Nat.lt_of_lt_of_le hlt hle), hrest⟩

/-- There are three kinds of items: a byte that is no opcode, an operand that is truncated, and an
instruction. -/
theorem result_cases (h : Tiles code pos items) {item : Item} (hm : item ∈ items) :
    (∃ b, code[item.offset]? = some b ∧ item.result = .error (.unknownOpcode b)) ∨
      (∃ op shortfall, item.result = .error (.truncatedOperand op shortfall)) ∨
      ∃ i : Instruction, InstructionAt code item.offset i ∧
        item.result =
          .ok { instruction := i, start := item.offset, stop := item.offset + i.size } := by
  obtain ⟨hr, -, hlt, hle⟩ := h.of_mem hm
  rw [Cursor.located] at hr
  rcases Cursor.instruction_cases { code, pos := item.offset } with
    ⟨hend, -⟩ | ⟨b, hb, -, e⟩ | ⟨op, -, -, e⟩ | ⟨i, hi, e⟩
  · exact absurd (Nat.lt_of_lt_of_le hlt hle) (Nat.not_lt_of_le hend)
  · rw [e] at hr
    exact .inl ⟨b, hb, hr⟩
  · rw [e] at hr
    exact .inr (.inl ⟨op, _, hr⟩)
  · rw [e] at hr
    exact .inr (.inr ⟨i, hi, hr⟩)

/-- The first item starts at the position, or there is none and the position is the end. -/
theorem head (h : Tiles code pos items) : (items.head?.map Item.offset).getD code.size = pos := by
  cases h <;> rfl

/-- Behind each item the next one starts where it stops, or the code ends there. -/
theorem next (h : Tiles code pos items) {k : Nat} {item : Item} (hk : items[k]? = some item) :
    (items[k + 1]?.map Item.offset).getD code.size = item.stop code.size := by
  induction h generalizing k with
  | nil => cases hk
  | cons _ _ h ih =>
    cases k with
    | zero =>
      cases hk
      rw [List.getElem?_cons_succ, ← List.head?_eq_getElem?]
      exact h.head
    | succ k => exact ih hk

/-- The last item stops at the end of the code. -/
theorem stop_of_getLast? (h : Tiles code pos items) {item : Item}
    (hl : items.getLast? = some item) : item.stop code.size = code.size := by
  rw [List.getLast?_eq_getElem?] at hl
  have hend : items[items.length - 1 + 1]? = none := List.getElem?_eq_none (by omega)
  rw [← h.next hl, hend]
  rfl

theorem pairwise (h : Tiles code pos items) : items.Pairwise (·.offset < ·.offset) := by
  induction h with
  | nil => exact .nil
  | cons _ hlt h ih => exact .cons (fun _ hm => Nat.lt_of_lt_of_le hlt (h.of_mem hm).2.1) ih

/-- No two items have the same offset. -/
theorem index_unique (h : Tiles code pos items) {j k : Nat} {item other : Item}
    (hj : items[j]? = some item) (hk : items[k]? = some other)
    (he : item.offset = other.offset) : j = k := by
  obtain ⟨hj', rfl⟩ := List.getElem?_eq_some_iff.1 hj
  obtain ⟨hk', rfl⟩ := List.getElem?_eq_some_iff.1 hk
  have hpair := List.pairwise_iff_getElem.1 h.pairwise
  rcases Nat.lt_trichotomy j k with hlt | heq | hgt
  · exact absurd he (Nat.ne_of_lt (hpair j k hj' hk' hlt))
  · exact heq
  · exact absurd he.symm (Nat.ne_of_lt (hpair k j hk' hj' hgt))

/-- A truncated operand is the last item. -/
theorem length_of_truncated (h : Tiles code pos items) {k : Nat} {item : Item}
    (hk : items[k]? = some item) (hs : item.stop code.size = code.size) :
    k + 1 = items.length := by
  have hlt := (List.getElem?_eq_some_iff.1 hk).1
  by_contra hne
  have hlt' : k + 1 < items.length := by omega
  have hnext := h.next hk
  rw [List.getElem?_eq_getElem hlt', Option.map_some, Option.getD_some, hs] at hnext
  have hmem := h.of_mem (List.getElem_mem hlt')
  omega

/-- The bytes of the items are those of the code from the position on. -/
theorem flatMap_bytes (h : Tiles code pos items) :
    items.flatMap (Item.bytes code) = code.toList.drop pos := by
  induction h with
  | nil => simp
  | @cons item items _ hlt _ ih =>
    have hdrop : code.toList.drop (item.stop code.size) =
        (code.toList.drop item.offset).drop (item.stop code.size - item.offset) := by
      rw [List.drop_drop, Nat.add_sub_cancel' (Nat.le_of_lt hlt)]
    rw [List.flatMap_cons, ih, hdrop, Item.bytes, Array.toList_extract, List.extract_eq_take_drop,
      List.take_append_drop]

/-- In front of an item there are as many bytes as its offset says. -/
theorem length_flatMap_bytes_take (h : Tiles code pos items) {k : Nat} {item : Item}
    (hk : items[k]? = some item) :
    pos + ((items.take k).flatMap (Item.bytes code)).length = item.offset := by
  induction h generalizing k with
  | nil => cases hk
  | @cons first items _ hlt h ih =>
    cases k with
    | zero =>
      cases hk
      rfl
    | succ k =>
      have hlength : (first.bytes code).length = first.stop code.size - first.offset := by
        rw [Item.bytes, Array.length_toList, Array.size_extract, Nat.min_eq_left h.le_size]
      rw [← ih hk, List.take_succ_cons, List.flatMap_cons, List.length_append, hlength]
      omega

end Tiles

end StackMachine
