import Mathlib.Logic.Function.Defs
import StackMachine.Proofs.Sequencing
import StackMachine.Proofs.Text

/-!
# Numbers and byte strings in hexadecimal

A byte string that is written in hexadecimal is read again (`parse_ofBytes`), so that no two byte
strings are written alike. What is written consists of digits only, which is why any other
character may stand behind it as an end mark (`not_mem_padded`, `not_mem_ofBytes`). The case of the
digits does not matter (`parse_of_map_toLower`).
-/

namespace StackMachine.Text.Hexadecimal

/-! ### Digits -/

theorem digit?_digitChar {n : Nat} (h : n < 16) : digit? n.digitChar = some n := by
  have key : ∀ n : Fin 16, digit? n.val.digitChar = some n.val := by decide
  exact key ⟨n, h⟩

theorem exists_digit?_of_mem_toDigits {n : Nat} {c : Char} (h : c ∈ Nat.toDigits 16 n) :
    ∃ d, digit? c = some d := by
  induction n using Nat.strongRecOn with
  | ind n ih =>
    rcases Nat.lt_or_ge n 16 with hn | hn
    · rw [Nat.toDigits_of_lt_base hn, List.mem_singleton] at h
      exact ⟨n, h ▸ digit?_digitChar hn⟩
    · rw [Nat.toDigits_of_base_le (by decide) hn, List.mem_append, List.mem_singleton] at h
      rcases h with h | rfl
      · exact ih (n / 16) (Nat.div_lt_self (by omega) (by decide)) h
      · exact ⟨n % 16, digit?_digitChar (Nat.mod_lt n (by decide))⟩

/-- A character that is no digit does not stand in a number. -/
theorem not_mem_padded {c : Char} (hc : digit? c = none) (width n : Nat) : c ∉ padded width n := by
  intro h
  obtain ⟨d, hd⟩ : ∃ d, digit? c = some d := by
    rw [padded, List.leftpad, List.mem_append, List.mem_replicate] at h
    rcases h with ⟨-, rfl⟩ | h
    · exact ⟨0, rfl⟩
    · exact exists_digit?_of_mem_toDigits h
  cases hc.symm.trans hd

/-- A character that is no digit does not stand in a byte string. -/
theorem not_mem_ofBytes {c : Char} (hc : digit? c = none) (bytes : List UInt8) :
    c ∉ ofBytes bytes := by
  intro h
  obtain ⟨b, -, hb⟩ := List.mem_flatMap.1 h
  exact not_mem_padded hc 2 b.toNat hb

/-! ### Byte strings -/

/-- A byte is written as its two digits, the high one first. -/
theorem ofByte_eq (b : UInt8) :
    ofByte b = [(b.toNat / 16).digitChar, (b.toNat % 16).digitChar] := by
  have hb := b.toNat_lt
  unfold ofByte padded
  rcases Nat.lt_or_ge b.toNat 16 with h | h
  · rw [Nat.toDigits_of_lt_base h, Nat.div_eq_of_lt h, Nat.mod_eq_of_lt h]
    rfl
  · rw [Nat.toDigits_of_base_le (by decide) h, Nat.toDigits_of_lt_base (by omega)]
    rfl

theorem pairs_ofBytes (index : Nat) (bytes : List UInt8) :
    pairs index (ofBytes bytes) = .ok bytes := by
  induction bytes generalizing index with
  | nil => rfl
  | cons b bytes ih =>
    have hb := b.toNat_lt
    have hhigh := digit?_digitChar (n := b.toNat / 16) (by omega)
    have hlow := digit?_digitChar (n := b.toNat % 16) (by omega)
    have hbyte : UInt8.ofNat (16 * (b.toNat / 16) + b.toNat % 16) = b := by
      rw [Nat.div_add_mod, UInt8.ofNat_toNat]
    unfold ofBytes at ih ⊢
    rw [List.flatMap_cons, ofByte_eq]
    simp only [List.cons_append, List.nil_append, pairs, hhigh, hlow, ih, hbyte]
    rfl

theorem length_ofBytes (bytes : List UInt8) : (ofBytes bytes).length = 2 * bytes.length := by
  induction bytes with
  | nil => rfl
  | cons b bytes ih =>
    unfold ofBytes at ih ⊢
    rw [List.flatMap_cons, ofByte_eq, List.length_append, ih]
    simp only [List.length_cons, List.length_nil]
    omega

/-- **A byte string is read as it was written.** -/
theorem parse_ofBytes (bytes : List UInt8) : parse (ofBytes bytes) = .ok bytes := by
  have heven : ¬(ofBytes bytes).length % 2 = 1 := by
    rw [length_ofBytes]
    omega
  rw [parse, if_neg heven, pairs_ofBytes]

theorem ofBytes_injective : Function.Injective ofBytes := fun bytes other h =>
  Except.ok.inj ((parse_ofBytes bytes).symm.trans ((congrArg parse h).trans (parse_ofBytes other)))

theorem ofBytes_flatMap {α : Type} (f : α → List UInt8) (xs : List α) :
    ofBytes (xs.flatMap f) = xs.flatMap fun x => ofBytes (f x) := by
  rw [ofBytes, List.flatMap_assoc]
  rfl

/-! ### Either case -/

/-- A digit has one value in either case. -/
theorem digit?_toLower (c : Char) : digit? c.toLower = digit? c := by
  rcases Nat.lt_or_ge c.toNat 128 with hc | hc
  · exact forall_ascii (P := fun c => digit? c.toLower = digit? c) (by decide +kernel) hc
  · have hupper : ¬(c.val ≥ 'A'.val ∧ c.val ≤ 'Z'.val) := by
      rintro ⟨-, h⟩
      have : c.toNat ≤ 90 := UInt32.le_iff_toNat_le.1 h
      omega
    have hsame : c.toLower = c := dif_neg hupper
    rw [hsame]

theorem lt_of_digit? {c : Char} {d : Nat} (h : digit? c = some d) : c.toNat < 128 := by
  simp only [digit?, Char.le_def, UInt32.le_iff_toNat_le] at h
  split at h
  next hc => exact Nat.lt_of_le_of_lt hc.2 (by decide)
  · split at h
    next hc => exact Nat.lt_of_le_of_lt hc.2 (by decide)
    · split at h
      next hc => exact Nat.lt_of_le_of_lt hc.2 (by decide)
      · cases h

theorem pairs_of_map_toLower {index : Nat} {cs : List Char} {bytes : List UInt8}
    (h : pairs index (cs.map Char.toLower) = .ok bytes) : pairs index cs = .ok bytes := by
  fun_induction pairs index cs generalizing bytes with
  | case1 => exact h
  | case2 => exact h
  | case3 index high low rest hhigh =>
    simp only [List.map_cons, pairs, digit?_toLower, hhigh] at h
    cases h
  | case4 index high low rest _ hhigh hlow =>
    simp only [List.map_cons, pairs, digit?_toLower, hhigh, hlow] at h
    cases h
  | case5 index high low rest _ _ hhigh hlow ih =>
    simp only [List.map_cons, pairs, digit?_toLower, hhigh, hlow] at h
    obtain ⟨bs, hbs, hbytes⟩ := bind_eq_ok_iff.1 h
    rw [ih hbs]
    exact hbytes

/-- A byte string is read in either case of its digits. -/
theorem parse_of_map_toLower {cs : List Char} {bytes : List UInt8}
    (h : cs.map Char.toLower = ofBytes bytes) : parse cs = .ok bytes := by
  have heven : ¬cs.length % 2 = 1 := by
    rw [← List.length_map (f := Char.toLower), h, length_ofBytes]
    omega
  rw [parse, if_neg heven]
  apply pairs_of_map_toLower
  rw [h, pairs_ofBytes]

/-- The digits of a byte string are characters of ASCII in either case. -/
theorem lt_of_map_toLower {cs : List Char} {bytes : List UInt8}
    (h : cs.map Char.toLower = ofBytes bytes) {c : Char} (hc : c ∈ cs) : c.toNat < 128 := by
  have hmem : c.toLower ∈ ofBytes bytes := h ▸ List.mem_map_of_mem hc
  obtain ⟨b, -, hb⟩ := List.mem_flatMap.1 hmem
  have hlt := b.toNat_lt
  obtain ⟨d, hd⟩ : ∃ d, digit? c.toLower = some d := by
    rw [ofByte_eq] at hb
    simp only [List.mem_cons, List.not_mem_nil, or_false] at hb
    rcases hb with hb | hb
    · exact ⟨_, hb ▸ digit?_digitChar (by omega)⟩
    · exact ⟨_, hb ▸ digit?_digitChar (by omega)⟩
  exact lt_of_digit? ((digit?_toLower c).symm.trans hd)

end StackMachine.Text.Hexadecimal
