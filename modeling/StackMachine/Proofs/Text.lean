import Mathlib.Algebra.Ring.Int.Defs
import Mathlib.Algebra.Ring.Nat
import StackMachine.Text.Blank
import StackMachine.Text.DecimalDigit
import StackMachine.Text.Lines
import StackMachine.Text.Numeral

/-!
# Lines and numbers in text

Lines that are joined by newlines are found again (`lines_unlines`), and a number that is written
in decimal is read again (`Numeral.parse_toString`), as long as its magnitude fits into 63 bits.
-/

namespace StackMachine.Text

/-! ### Characters -/

/-- The characters of ASCII can be gone through. -/
theorem forall_ascii {P : Char → Prop} (h : ∀ n < 128, P (Char.ofNat n)) {c : Char}
    (hc : c.toNat < 128) : P c :=
  Char.ofNat_toNat c ▸ h c.toNat hc

/-! ### Lines -/

theorem lines_eq_splitOn (cs : List Char) : lines cs = cs.splitOn '\n' := by
  induction cs with
  | nil => simp
  | cons c cs ih =>
    rw [List.splitOn_cons_eq_if_modifyHead]
    by_cases hc : c = '\n'
    · simp [hc, ih]
    · obtain ⟨first, rest, h, h'⟩ := lines_cons hc cs
      rw [h', ← ih, h]
      simp [hc]

/-- Lines are found again in the text that has them. -/
theorem lines_unlines {ls : List (List Char)} (h : ∀ l ∈ ls, '\n' ∉ l) (hne : ls ≠ []) :
    lines (unlines ls) = ls := by
  rw [lines_eq_splitOn]
  exact List.splitOn_intercalate '\n' h hne

/-- A text is put together again from its lines. -/
theorem unlines_lines (cs : List Char) : unlines (lines cs) = cs := by
  rw [lines_eq_splitOn]
  exact List.intercalate_splitOn '\n'

theorem lines_ne_nil (cs : List Char) : lines cs ≠ [] := by
  obtain ⟨first, rest, h, -⟩ := linesAfter_eq_append [] cs
  rw [h]
  exact List.cons_ne_nil _ _

/-- A newline ends a line, so there is none in it. -/
theorem newline_not_mem_of_mem_lines {cs line : List Char} (h : line ∈ lines cs) :
    '\n' ∉ line := by
  induction cs generalizing line with
  | nil => simp_all
  | cons c cs ih =>
    by_cases hc : c = '\n'
    · subst hc
      rw [lines_newline] at h
      rcases List.mem_cons.1 h with rfl | h
      · exact List.not_mem_nil
      · exact ih h
    · obtain ⟨first, rest, hcs, hlines⟩ := lines_cons hc cs
      rw [hlines] at h
      rw [hcs] at ih
      rcases List.mem_cons.1 h with rfl | h
      · rw [List.mem_cons, not_or]
        exact ⟨Ne.symm hc, ih (.head _)⟩
      · exact ih (.tail _ h)

/-- A newline ends the first line. -/
theorem lines_append_newline {line : List Char} (h : '\n' ∉ line) (cs : List Char) :
    lines (line ++ '\n' :: cs) = line :: lines cs := by
  induction line with
  | nil => exact lines_newline cs
  | cons c line ih =>
    rw [List.mem_cons, not_or] at h
    obtain ⟨hc, hline⟩ := h
    obtain ⟨first, rest, h₁, h₂⟩ := lines_cons (Ne.symm hc) (line ++ '\n' :: cs)
    obtain ⟨rfl, rfl⟩ := List.cons.inj (h₁.symm.trans (ih hline))
    exact h₂

/-- Texts with a newline between them have the lines of both. -/
theorem lines_append_newline_append (cs ds : List Char) :
    lines (cs ++ '\n' :: ds) = lines cs ++ lines ds := by
  induction cs with
  | nil => simp
  | cons c cs ih =>
    by_cases hc : c = '\n'
    · simp [hc, ih]
    · obtain ⟨first, rest, h₁, h₂⟩ := lines_cons hc cs
      obtain ⟨first', rest', h₃, h₄⟩ := lines_cons hc (cs ++ '\n' :: ds)
      rw [h₁, h₃, List.cons_append] at ih
      obtain ⟨rfl, rfl⟩ := List.cons.inj ih
      rw [List.cons_append, h₂, h₄, List.cons_append]

theorem sum_length_le_length_unlines (ls : List (List Char)) :
    (ls.map List.length).sum ≤ (unlines ls).length := by
  induction ls with
  | nil => exact Nat.le_refl 0
  | cons line ls ih =>
    cases ls with
    | nil => simp [unlines]
    | cons next ls =>
      unfold unlines at ih ⊢
      rw [List.intercalate_cons_cons, List.length_append, List.length_append, List.map_cons,
        List.sum_cons]
      omega

/-! ### Words -/

/-- A word ends where the text behind it has a character of another kind. -/
theorem takeWhile_append_of_head? {p : Char → Bool} {word rest : List Char}
    (hw : ∀ c ∈ word, p c = true) (hr : ∀ c ∈ rest.head?, p c = false) :
    (word ++ rest).takeWhile p = word := by
  rw [List.takeWhile_append_of_pos hw]
  cases rest with
  | nil => simp
  | cons c rest => simp [hr c rfl]

theorem dropWhile_append_of_head? {p : Char → Bool} {word rest : List Char}
    (hw : ∀ c ∈ word, p c = true) (hr : ∀ c ∈ rest.head?, p c = false) :
    (word ++ rest).dropWhile p = rest := by
  rw [List.dropWhile_append_of_pos hw]
  cases rest with
  | nil => rfl
  | cons c rest => simp [hr c rfl]

/-! ### Digits -/

theorem isDigit_iff {c : Char} : c.isDigit = true ↔ 48 ≤ c.toNat ∧ c.toNat ≤ 57 := by
  simp only [Char.isDigit, Bool.and_eq_true, decide_eq_true_eq, UInt32.le_iff_toNat_le, ge_iff_le]
  exact Iff.rfl

theorem Hexadecimal.digit?_of_isDigit {c : Char} (h : c.isDigit = true) :
    digit? c = some (c.toNat - '0'.toNat) := by
  simp only [Char.isDigit, Bool.and_eq_true, decide_eq_true_eq] at h
  exact if_pos h

theorem not_mem_toDigits {c : Char} (hc : c.isDigit = false) (n : Nat) :
    c ∉ Nat.toDigits 10 n := by
  intro h
  rw [Nat.isDigit_of_mem_toDigits (by decide) (by decide) h] at hc
  cases hc

/-! ### Numbers -/

theorem toList_toString_int (n : Int) :
    (toString n).toList =
      if 0 ≤ n then Nat.toDigits 10 n.toNat else '-' :: Nat.toDigits 10 (-n).toNat := by
  rw [Int.toString_eq_repr, Int.repr_eq_if]
  split <;> simp

/-- A number is written in digits, with a minus sign if it is negative. -/
theorem char_of_mem_toString_int {n : Int} {c : Char} (h : c ∈ (toString n).toList) :
    c.isDigit = true ∨ c = '-' := by
  have hdigit (m : Nat) (hm : c ∈ Nat.toDigits 10 m) : c.isDigit = true :=
    Nat.isDigit_of_mem_toDigits (by decide) (by decide) hm
  rw [toList_toString_int] at h
  split at h
  · exact .inl (hdigit _ h)
  · rcases List.mem_cons.1 h with rfl | h
    · exact .inr rfl
    · exact .inl (hdigit _ h)

theorem toList_toString_int_ne_nil (n : Int) : (toString n).toList ≠ [] := by
  rw [toList_toString_int]
  split
  · exact Nat.toDigits_ne_nil
  · exact List.cons_ne_nil _ _

namespace Numeral

theorem fits_of_natAbs_lt {n : Int} (h : n.natAbs < 2 ^ 63) : Fits n := ⟨by omega, by omega⟩

theorem extend?_of_isDigit {cs : List Char} (h : ∀ c ∈ cs, c.isDigit = true) (n : Nat) :
    extend? 10 n cs = some (Nat.ofDigitChars 10 cs n) := by
  induction cs generalizing n with
  | nil => simp [extend?]
  | cons c cs ih =>
    obtain ⟨hc, hcs⟩ := List.forall_mem_cons.1 h
    have hlt : c.toNat - '0'.toNat < 10 := by
      have := isDigit_iff.1 hc
      show c.toNat - 48 < 10
      omega
    unfold extend?
    rw [List.foldlM_cons, Hexadecimal.digit?_of_isDigit hc, Nat.ofDigitChars_cons, ← ih hcs]
    simp only [if_pos hlt]
    rfl

theorem natural?_toDigits (n : Nat) : natural? 10 (Nat.toDigits 10 n) = some n := by
  unfold natural?
  split
  · next h => exact absurd h Nat.toDigits_ne_nil
  · have hdigits : ∀ c ∈ Nat.toDigits 10 n, c.isDigit = true := fun c =>
      Nat.isDigit_of_mem_toDigits (by decide) (by decide)
    rw [extend?_of_isDigit hdigits, Nat.ofDigitChars_ten_toDigits]

theorem signed?_toDigits {n : Nat} (h : n < 2 ^ 63) :
    signed? 10 (Nat.toDigits 10 n) = some (n : Int) := by
  have hfits : Fits n := fits_of_natAbs_lt (by omega)
  have hminus := not_mem_toDigits (c := '-') (by decide) n
  have hplus := not_mem_toDigits (c := '+') (by decide) n
  unfold signed?
  split
  · simp_all
  · simp_all
  · simp [natural?_toDigits, hfits]

/-- Without a minus sign in front a number is not negative. -/
theorem signed?_nonneg {base : Nat} {cs : List Char} {n : Int} (hhead : cs.head? ≠ some '-')
    (h : signed? base cs = some n) : 0 ≤ n := by
  have hnatural (ds : List Char) (hn : ((natural? base ds).bind fun k => some (k : Int)) = some n) :
      0 ≤ n := by
    obtain ⟨k, -, hk⟩ := Option.bind_eq_some_iff.1 hn
    cases hk
    exact Int.natCast_nonneg k
  obtain ⟨h, -⟩ := Option.filter_eq_some_iff.1 h
  split at h
  · exact absurd rfl hhead
  · exact hnatural _ (by simpa using h)
  · exact hnatural _ (by simpa using h)

theorem magnitude?_toDigits {n : Nat} (h : n < 2 ^ 63) :
    magnitude? (Nat.toDigits 10 n) = some (n : Int) := by
  have hminus := not_mem_toDigits (c := '-') (by decide) n
  have hplus := not_mem_toDigits (c := '+') (by decide) n
  have hx := not_mem_toDigits (c := 'x') (by decide) n
  have hX := not_mem_toDigits (c := 'X') (by decide) n
  unfold magnitude?
  split
  · simp_all
  · simp_all
  · simp_all
  · simp_all
  · exact signed?_toDigits h

/-- **A number is read as it was written** in decimal, with its sign. -/
theorem parse_toString {n : Int} (h : n.natAbs < 2 ^ 63) :
    parse (toString n).toList = .ok n := by
  rw [toList_toString_int]
  split
  · next hn =>
    have hminus := not_mem_toDigits (c := '-') (by decide) n.toNat
    have hplus := not_mem_toDigits (c := '+') (by decide) n.toNat
    unfold parse
    split
    · simp_all
    · simp_all
    · rw [magnitude?_toDigits (by omega), Option.elim_some, Int.toNat_of_nonneg hn]
  · next hn =>
    have hfits : Fits n := fits_of_natAbs_lt h
    have hvalue : -((-n).toNat : Int) = n := by omega
    simp only [parse]
    rw [magnitude?_toDigits (by omega), Option.elim_some, opposite, hvalue, if_pos hfits]

end Numeral

end StackMachine.Text
