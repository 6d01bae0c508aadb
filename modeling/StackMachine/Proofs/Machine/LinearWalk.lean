import StackMachine.Proofs.Machine.Boundaries
import StackMachine.Proofs.Tiling

/-!
# Running along a walk

A run reads its code on its own: it decodes wherever its program counter stands, while a walk
decodes one item behind the other. The two may disagree, as a branch can go into the middle of an
item. But as long as no branch that is taken does so, the run takes every instruction from the walk
(`turn_along_walk`): the program counter stands at the offset of an item, the instruction there is
that of the item, the run goes on at the next item, and where the walk has an error the run faults
with it. This holds for any bytes, also where some of them are no opcodes.

What carries over from turn to turn is that the program counter is a landing of the walk
(`ReachableAlong.landing`), since each item stops where the next one starts.
-/

namespace StackMachine.Machine

open Relation

/-- A place that agrees with the walk: the offset of an item, the end of the code, or any place
outside the code, where nothing is read. -/
def Landing (code : Code) (pc : Int) : Prop :=
  (∃ item ∈ walk code, pc = item.offset) ∨ pc = code.size ∨ pc < 0 ∨ code.size < pc

/-- A turn completes an instruction and the run goes on; if the instruction is a branch that is
taken, its target is a landing. -/
def NextAlong (code : Code) (m m' : Machine) : Prop :=
  ∃ i, m.turn code = .completed i .next m' ∧
    ∀ offset, i.branchOffset? = some offset → Takes m i → Landing code (m.pc + offset.toInt)

/-- A run under some limits comes to the machine, and all branches that it has taken went to
landings. -/
def ReachableAlong (limits : Limits) (code : Code) (m : Machine) : Prop :=
  ReflTransGen (NextAlong code) limits.start m

/-- The offset of the item behind the `k`-th one of a walk, or the end of the code. -/
def nextOffset (code : Code) (k : Nat) : Nat :=
  ((walk code)[k + 1]?.map Item.offset).getD code.size

/-- The turn of a machine that takes its instruction from an item of a walk and does not read it.
The next item stands at `next`, and `length` is that of the code. -/
def turnOf (length : Nat) (item : Item) (next : Nat) (m : Machine) : Turn :=
  match item.result with
  | .error e => .faulted (.ofDecodeError length e) m
  | .ok l =>
    match execute l.instruction { m with pc := next } with
    | .ok flow after => .completed l.instruction flow after
    | .error kind after => .faulted kind after

variable {code : Code} {m m' : Machine}

/-! ### One turn -/

/-- Where an item is what is decoded at the program counter, a turn need not decode. -/
theorem turn_eq_turnOf {pos next : Nat} {item : Item} (hpc : m.pc = pos) (hpos : pos < code.size)
    (hr : item.result = (Cursor.located { code, pos }).1)
    (hnext : ∀ l, item.result = .ok l → l.stop = next) :
    m.turn code = m.turnOf code.size item next := by
  rw [turn_of_lt hpc hpos, turnOf]
  rcases e : Cursor.instruction { code, pos } with ⟨_ | i, c⟩
  · rw [hr, Cursor.located, e]
  · have hok : item.result = .ok { instruction := i, start := pos, stop := c.pos } := by
      rw [hr, Cursor.located, e]
    rw [hok]
    obtain rfl : c.pos = next := hnext _ hok
    rfl

/-- A fault that comes from reading is that of an error of the walk. -/
theorem error_of_turnOf {length next : Nat} {item : Item} {kind : FaultKind} {after : Machine}
    (h : m.turnOf length item next = .faulted kind after) (hk : ¬ kind.OfExecution) :
    ∃ e, item.result = .error e ∧ kind = .ofDecodeError length e := by
  unfold turnOf at h
  split at h
  · next e he =>
    cases h
    exact ⟨e, he, rfl⟩
  · split at h
    · cases h
    · next hx =>
      cases h
      exact absurd (execute_eq_error_iff.1 hx).ofExecution hk

/-! ### Landings -/

/-- Inside the code a landing is the offset of an item. -/
theorem Landing.exists_item {pos : Nat} (h : Landing code pos) (hpos : pos < code.size) :
    ∃ (k : Nat) (item : Item), (walk code)[k]? = some item ∧ item.offset = pos := by
  rcases h with ⟨item, hm, hoffset⟩ | hend | hout | hout
  · obtain ⟨k, hk⟩ := List.getElem?_of_mem hm
    exact ⟨k, item, hk, (Int.ofNat.inj hoffset).symm⟩
  all_goals omega

/-- The offset of an item, if there is one, or the end of the code. -/
theorem landing_of_getD {o : Option Item} {pos : Nat} (ho : ∀ item ∈ o, item ∈ walk code)
    (h : (o.map Item.offset).getD code.size = pos) : Landing code pos := by
  subst h
  cases o with
  | none => exact .inr (.inl rfl)
  | some item => exact .inl ⟨item, ho item rfl, rfl⟩

theorem landing_zero (code : Code) : Landing code 0 :=
  landing_of_getD (fun _ h => List.mem_of_mem_head? h) (tiles_walk code).head

/-- A turn goes from landing to landing: behind an item to the next one, or to the target of a
branch. -/
theorem NextAlong.landing (h : NextAlong code m m') (hm : Landing code m.pc) :
    Landing code m'.pc := by
  obtain ⟨i, ht, hbranch⟩ := h
  obtain ⟨pos, hpc, hi, hp⟩ := turn_eq_completed_iff.1 ht
  rcases hp.pc_cases with hnext | ⟨htakes, offset, ho, htarget⟩
  · rw [hpc] at hm
    obtain ⟨k, item, hk, rfl⟩ := hm.exists_item hi.lt_size
    have htiles := tiles_walk code
    have hstop : item.stop code.size = item.offset + i.size := by
      rw [Item.stop, (htiles.of_mem (List.mem_of_getElem? hk)).1, hi.located]
    rw [hnext, ← hstop]
    exact landing_of_getD (fun _ h => List.mem_of_getElem? h) (htiles.next hk)
  · rw [htarget, ← hpc]
    exact hbranch offset ho htakes

/-- **A run along a walk stays on its landings.** -/
theorem ReachableAlong.landing {limits : Limits} (h : ReachableAlong limits code m) :
    Landing code m.pc := by
  induction h with
  | refl => exact landing_zero code
  | tail _ hnext ih => exact hnext.landing ih

/-! ### Running along the walk -/

/-- **A run reads what the walk reads**, as long as every branch that it has taken went to the
offset of an item, to the end of the code or outside it. Whenever its program counter is inside the
code, it is the offset of exactly one item; what is decoded there is the result of this item, and an
instruction stops where the next item starts, or at the end of the code. So the turn is the one that
the item gives; and if it faults in reading, then with the error of the item. -/
theorem turn_along_walk {limits : Limits} (hm : ReachableAlong limits code m) {pos : Nat}
    (hpc : m.pc = pos) (hpos : pos < code.size) :
    ∃ (k : Nat) (item : Item), (walk code)[k]? = some item ∧ item.offset = pos ∧
      (∀ (j : Nat) (other : Item), (walk code)[j]? = some other → other.offset = pos → j = k) ∧
      item.result = (Cursor.located { code, pos }).1 ∧
      (∀ l, item.result = .ok l → l.start = pos ∧ l.stop = nextOffset code k) ∧
      m.turn code = m.turnOf code.size item (nextOffset code k) ∧
      ∀ kind after, m.turn code = .faulted kind after → ¬ kind.OfExecution →
        ∃ e, item.result = .error e ∧ kind = .ofDecodeError code.size e := by
  have htiles := tiles_walk code
  obtain ⟨k, item, hk, rfl⟩ := (hpc ▸ hm.landing).exists_item hpos
  have hr := (htiles.of_mem (List.mem_of_getElem? hk)).1
  have hplace (l : Located) (hl : item.result = .ok l) :
      l.start = item.offset ∧ l.stop = nextOffset code k := by
    obtain ⟨-, hstart, -⟩ := Cursor.of_located_eq_ok (hr.symm.trans hl)
    have hstop : item.stop code.size = l.stop := by rw [Item.stop, hl]
    exact ⟨hstart, hstop.symm.trans (htiles.next hk).symm⟩
  have hturn := turn_eq_turnOf hpc hpos hr fun l hl => (hplace l hl).2
  refine ⟨k, item, hk, rfl, ?_, hr, hplace, hturn, ?_⟩
  · intro j other hj hoffset
    exact htiles.index_unique hj hk hoffset
  · intro kind after ht hkind
    exact error_of_turnOf (hturn.symm.trans ht) hkind

/-- A branch forth to an instruction behind a byte that is no opcode, and a branch back to this
byte, on which the walk has an error and the run faults. -/
theorem turn_along_walk_back_to_unknown :
    let code : Code := #[0xa7, 0x00, 0x04, 0xb8, 0xa7, 0xff, 0xff]
    let m : Machine := ⟨⟨[], 0⟩, 3, #[]⟩
    ReachableAlong ⟨0, 0⟩ code m ∧ m.turn code = .faulted (.unknownOpcode 0xb8) m ∧
      ∃ (k : Nat) (item : Item) (e : DecodeError), (walk code)[k]? = some item ∧
        item.offset = 3 ∧ item.result = .error e ∧
        FaultKind.unknownOpcode 0xb8 = .ofDecodeError 7 e := by
  intro code m
  have hoffsets : (walk code).map Item.offset = [0, 3, 4] := by decide +kernel
  have hland (pos : Nat) (h : pos ∈ [0, 3, 4]) : Landing code pos := by
    obtain ⟨item, hm, rfl⟩ := List.mem_map.1 (hoffsets ▸ h)
    exact .inl ⟨item, hm, rfl⟩
  have hforth : NextAlong code (Limits.start ⟨0, 0⟩) ⟨⟨[], 0⟩, 4, #[]⟩ := by
    refine ⟨.goto 4, by decide, ?_⟩
    rintro _ ⟨⟩ -
    exact hland 4 (by decide)
  have hback : NextAlong code ⟨⟨[], 0⟩, 4, #[]⟩ m := by
    refine ⟨.goto (-1), by decide, ?_⟩
    rintro _ ⟨⟩ -
    exact hland 3 (by decide)
  have hm : ReachableAlong ⟨0, 0⟩ code m := .tail (.single hforth) hback
  have hturn : m.turn code = .faulted (.unknownOpcode 0xb8) m := by decide
  obtain ⟨k, item, hk, hoffset, -, -, -, -, hfault⟩ := turn_along_walk hm rfl (by decide)
  obtain ⟨e, he, hkind⟩ := hfault _ _ hturn id
  exact ⟨hm, hturn, k, item, e, hk, hoffset, he, hkind⟩

end StackMachine.Machine
