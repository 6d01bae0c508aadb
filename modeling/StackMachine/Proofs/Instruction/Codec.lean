import StackMachine.Proofs.Sequencing
import StackMachine.Proofs.Walk

/-!
# Encoding and walking undo each other

A list of instructions has an encoding when each of them has one, and then the encoding is their
bytes, one behind the other. A walk over such bytes gives the instructions back, and a code over
which a walk meets no error is the encoding of what the walk finds.
-/

namespace StackMachine

namespace Instruction

/-! ### When there is an encoding -/

theorem encode_eq_ok_iff {i : Instruction} {bs : List UInt8} :
    i.encode = .ok bs ↔ i.Encodable ∧ bs = i.bytes := by
  unfold encode
  split <;> simp_all [eq_comm]

theorem encode_eq_error_iff {i : Instruction} {e : NoShortForm} :
    i.encode = .error e ↔ ¬ i.Encodable ∧ e = { instruction := i } := by
  unfold encode
  split <;> simp_all [eq_comm]

/-- The instructions of a list are encodable if its short forms are within their bounds. -/
theorem forall_encodable_iff {is : List Instruction} :
    (∀ i ∈ is, i.Encodable) ↔
      (∀ v, .iconst v ∈ is → -1 ≤ v.toInt ∧ v.toInt ≤ 5) ∧
        ∀ index, .iloadShort index ∈ is ∨ .istoreShort index ∈ is → index.toNat ≤ 3 := by
  constructor
  · intro h
    refine ⟨fun v hv => h _ hv, ?_⟩
    intro index hi
    apply Nat.le_of_lt_succ
    rcases hi with hi | hi
    · exact h _ hi
    · exact h _ hi
  · rintro ⟨hc, hs⟩ i hi
    cases i with
    | iconst v => exact hc v hi
    | iloadShort index => exact Nat.lt_succ_of_le (hs index (.inl hi))
    | istoreShort index => exact Nat.lt_succ_of_le (hs index (.inr hi))
    | _ => trivial

theorem encodeAll_eq_ok_iff {is : List Instruction} {code : Code} :
    encodeAll is = .ok code ↔ (∀ i ∈ is, i.Encodable) ∧ code = (is.flatMap bytes).toArray := by
  unfold encodeAll
  rw [bind_eq_ok_iff]
  constructor
  · rintro ⟨bss, h, hc⟩
    have hall := mapM_eq_ok_iff.1 h
    simp only [encode_eq_ok_iff] at hall
    obtain ⟨henc, rfl⟩ : (∀ i ∈ is, i.Encodable) ∧ bss = is.map bytes := by
      clear h hc
      induction hall with
      | nil => simp
      | cons hi _ ih =>
        obtain ⟨hj, rfl⟩ := ih
        exact ⟨List.forall_mem_cons.2 ⟨hi.1, hj⟩, by rw [hi.2, List.map_cons]⟩
    exact ⟨henc, (Except.ok.inj hc).symm⟩
  · rintro ⟨henc, rfl⟩
    refine ⟨is.map bytes, mapM_eq_ok_iff.2 ?_, rfl⟩
    rw [List.forall₂_map_right_iff, List.forall₂_same]
    exact fun i hi => encode_eq_ok_iff.2 ⟨henc i hi, rfl⟩

/-- The first instruction without an encoding is the one that is reported. -/
theorem encodeAll_eq_error_iff {is : List Instruction} {e : NoShortForm} :
    encodeAll is = .error e ↔
      ∃ before i after, is = before ++ i :: after ∧ (∀ j ∈ before, j.Encodable) ∧
        ¬ i.Encodable ∧ e = { instruction := i } := by
  have h : encodeAll is = .error e ↔ is.mapM encode = .error e := by
    unfold encodeAll
    rw [bind_eq_error_iff]
    exact or_iff_left fun ⟨_, _, h⟩ => by cases h
  simp only [h, mapM_eq_error_iff, encode_eq_ok_iff, encode_eq_error_iff, exists_and_left,
    exists_eq, and_true]

end Instruction

open Instruction

/-- The instructions of an encoding stand in it one behind the other. -/
theorem walk_of_encodeAll {is : List Instruction} {code : Code} (h : encodeAll is = .ok code) :
    walk code = (laidOut 0 is).map Located.item := by
  obtain ⟨henc, rfl⟩ := encodeAll_eq_ok_iff.1 h
  refine walkFrom_eq_laidOut henc (holdsAt_toArray _) ?_
  rw [List.size_toArray, length_flatMap_bytes, Nat.zero_add]

/-- A code over which a walk meets no error is the encoding of the instructions found. -/
theorem encodeAll_of_walk {code : Code} {ls : List Located}
    (h : (walk code).map Item.result = ls.map .ok) :
    encodeAll (ls.map Located.instruction) = .ok code := by
  obtain ⟨henc, hb, hs⟩ := holdsAt_of_walkFrom (Nat.zero_le _) h
  refine encodeAll_eq_ok_iff.2 ⟨List.forall_mem_map.2 henc, ?_⟩
  have hb' : (ls.map Located.instruction).flatMap bytes <+: code.toList := by
    simpa [HoldsAt] using hb
  have hl : ((ls.map Located.instruction).flatMap bytes).length = code.toList.length := by
    rw [length_flatMap_bytes, Array.length_toList, hs, Nat.zero_add]
  rw [hb'.eq_of_length hl]

/-- **Encoding and walking are inverse to each other.** A list has an encoding when its short forms
are within their bounds, and otherwise the first one that is not is reported. The walk over an
encoding finds exactly the instructions of the list, each behind all the bytes of those in front
of it; and if a walk over any code finds instructions only, their encoding is that code. -/
theorem encodeAll_walk_inverse :
    (∀ is, (∃ code, encodeAll is = .ok code) ↔
      (∀ v, .iconst v ∈ is → -1 ≤ v.toInt ∧ v.toInt ≤ 5) ∧
        ∀ index, .iloadShort index ∈ is ∨ .istoreShort index ∈ is → index.toNat ≤ 3) ∧
    (∀ is e, encodeAll is = .error e ↔
      ∃ before i after, is = before ++ i :: after ∧ (∀ j ∈ before, j.Encodable) ∧
        ¬ i.Encodable ∧ e = { instruction := i }) ∧
    (∀ is code, encodeAll is = .ok code →
      (walk code).length = is.length ∧
        ∀ k (hk : k < is.length), (walk code)[k]? = some
          { offset := ((is.take k).map Instruction.size).sum
            result := .ok
              { instruction := is[k]
                start := ((is.take k).map Instruction.size).sum
                stop := ((is.take k).map Instruction.size).sum + is[k].size } }) ∧
    (∀ code (ls : List Located), (walk code).map Item.result = ls.map .ok →
      encodeAll (ls.map Located.instruction) = .ok code) := by
  refine ⟨?_, fun _ _ => encodeAll_eq_error_iff, ?_, fun _ _ => encodeAll_of_walk⟩
  · intro is
    rw [← forall_encodable_iff]
    simp only [encodeAll_eq_ok_iff, exists_and_left, exists_eq, and_true]
  · intro is code h
    rw [walk_of_encodeAll h]
    refine ⟨by simp, ?_⟩
    intro k hk
    rw [List.getElem?_map, getElem?_laidOut, List.getElem?_eq_getElem hk]
    simp [Located.item, totalSize]

/-- A branch back and a short constant behind it, there and back again. -/
theorem encodeAll_walk_inverse_branch_back :
    encodeAll [.ifIcmp .lt (-3), .iconst (-1)] = .ok #[0xa1, 0xff, 0xfd, 0x02] ∧
      (walk #[0xa1, 0xff, 0xfd, 0x02])[1]? = some
        { offset := 3, result := .ok { instruction := .iconst (-1), start := 3, stop := 4 } } ∧
      (walk #[0xa1, 0xff, 0xfd, 0x02]).map Item.result =
        [.ok ⟨.ifIcmp .lt (-3), 0, 3⟩, .ok ⟨.iconst (-1), 3, 4⟩] := by
  have henc : encodeAll [.ifIcmp .lt (-3), .iconst (-1)] = .ok #[0xa1, 0xff, 0xfd, 0x02] := rfl
  have hwalk : (walk #[0xa1, 0xff, 0xfd, 0x02]).map Item.result =
      [.ok ⟨.ifIcmp .lt (-3), 0, 3⟩, .ok ⟨.iconst (-1), 3, 4⟩] := by
    rw [walk_of_encodeAll henc]
    rfl
  exact ⟨encodeAll_walk_inverse.2.2.2 _ [⟨.ifIcmp .lt (-3), 0, 3⟩, ⟨.iconst (-1), 3, 4⟩] hwalk,
    (encodeAll_walk_inverse.2.2.1 _ _ henc).2 1 Nat.one_lt_two, hwalk⟩

end StackMachine
