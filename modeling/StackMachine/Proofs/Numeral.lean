import Mathlib.Data.Nat.Digits.Defs
import StackMachine.Proofs.Hexadecimal
import StackMachine.Proofs.Sequencing

/-!
# The grammar of numerals

A numeral is a sign, if any, and decimal digits, or `0x` or `0X` and hexadecimal digits, and its
number is the one that they stand for (`OneSign`). Numerals that are read have one more form: behind
the mark of a hexadecimal number a second sign may stand (`NumeralText`). These and no others are
read, and as their number, if it fits (`parse_eq_ok_iff`). The two grammars agree on every text
in which no sign follows the mark (`numeralText_iff_oneSign`), and there all numbers fit.
-/

namespace StackMachine.Text.Numeral

open Hexadecimal

/-! ### Texts of numbers -/

/-- A sign, if there is one, and the factor that it stands for. -/
inductive SignText : Int → List Char → Prop
  | none : SignText 1 []
  | plus : SignText 1 ['+']
  | minus : SignText (-1) ['-']

/-- One or more digits of a base and their number, the last digit having the value of itself. -/
def DigitsText (base n : Nat) (cs : List Char) : Prop :=
  cs ≠ [] ∧ ∃ ds : List Nat, List.Forall₂ (fun c d => digit? c = some d ∧ d < base) cs ds ∧
    n = Nat.ofDigits base ds.reverse

/-- What stands in front of hexadecimal digits. -/
inductive IsMark : List Char → Prop
  | lower : IsMark ['0', 'x']
  | upper : IsMark ['0', 'X']

/-- A number without a sign. -/
inductive UnsignedText : Nat → List Char → Prop
  | decimal {n : Nat} {cs : List Char} (h : DigitsText 10 n cs) : UnsignedText n cs
  | hexadecimal {n : Nat} {mark cs : List Char} (hm : IsMark mark) (h : DigitsText 16 n cs) :
      UnsignedText n (mark ++ cs)

/-- A numeral with at most one sign, which stands in front of it. -/
inductive OneSign : Int → List Char → Prop
  | mk {s : Int} {n : Nat} {sign cs : List Char} (hs : SignText s sign) (h : UnsignedText n cs)
      (hn : n ≤ 2 ^ 63 - 1) : OneSign (s * n) (sign ++ cs)

/-- A numeral without its first sign: a second one can stand in front of hexadecimal digits. -/
inductive MagnitudeText : Int → List Char → Prop
  | decimal {n : Nat} {cs : List Char} (h : DigitsText 10 n cs) : MagnitudeText n cs
  | hexadecimal {s : Int} {n : Nat} {mark sign cs : List Char} (hm : IsMark mark)
      (hs : SignText s sign) (h : DigitsText 16 n cs) :
      MagnitudeText (s * n) (mark ++ (sign ++ cs))

/-- A numeral, with all the signs that are read. -/
inductive NumeralText : Int → List Char → Prop
  | mk {s m : Int} {sign cs : List Char} (hs : SignText s sign) (h : MagnitudeText m cs)
      (hm : Fits m) : NumeralText (s * m) (sign ++ cs)

/-- A sign that is not the first character stands behind the mark of a hexadecimal number. -/
def SignBehindMark (cs : List Char) : Prop :=
  ∃ s sign mark c rest, SignText s sign ∧ IsMark mark ∧ (c = '+' ∨ c = '-') ∧
    cs = sign ++ (mark ++ c :: rest)

/-! ### Digits -/

theorem extend?_eq_some_iff {base init n : Nat} {cs : List Char} :
    extend? base init cs = some n ↔
      ∃ ds : List Nat, List.Forall₂ (fun c d => digit? c = some d ∧ d < base) cs ds ∧
        n = ds.foldl (fun n d => base * n + d) init := by
  induction cs generalizing init with
  | nil => simp [extend?, eq_comm]
  | cons c cs ih =>
    unfold extend? at ih ⊢
    simp only [List.foldlM_cons, Option.bind_eq_bind, Option.bind_eq_some_iff, ih,
      List.forall₂_cons_left_iff]
    constructor
    · rintro ⟨k, hk, ds, hds, rfl⟩
      cases hd : digit? c with
      | none => simp [hd] at hk
      | some d =>
        simp only [hd, Option.ite_none_right_eq_some, Option.some.injEq] at hk
        obtain ⟨hlt, rfl⟩ := hk
        exact ⟨d :: ds, ⟨d, ds, ⟨rfl, hlt⟩, hds, rfl⟩, rfl⟩
    · rintro ⟨_, ⟨d, ds, ⟨hd, hlt⟩, hds, rfl⟩, rfl⟩
      exact ⟨base * init + d, by simp [hd, hlt], ds, hds, rfl⟩

/-- Digits are read as their number. -/
theorem natural?_eq_some_iff {base n : Nat} {cs : List Char} :
    natural? base cs = some n ↔ DigitsText base n cs := by
  have hvalue (ds : List Nat) :
      Nat.ofDigits base ds.reverse = ds.foldl (fun n d => base * n + d) 0 := by
    rw [Nat.ofDigits_eq_foldr, List.foldr_reverse]
    simp [Nat.add_comm]
  unfold DigitsText
  cases cs with
  | nil => simp [natural?]
  | cons c cs =>
    show extend? base 0 (c :: cs) = some n ↔ _
    rw [extend?_eq_some_iff]
    simp [hvalue]

/-- No sign is a digit. -/
theorem DigitsText.not_sign {base n : Nat} {cs : List Char} (h : DigitsText base n cs) :
    ∀ c ∈ cs, c ≠ '+' ∧ c ≠ '-' := by
  obtain ⟨-, ds, hds, -⟩ := h
  intro c hc
  obtain ⟨d, -, hd, -⟩ := exists_mem_of_forall₂ hds hc
  constructor <;> (rintro rfl; cases hd)

/-- Neither is a decimal digit what marks a hexadecimal number. -/
theorem DigitsText.not_mark {n : Nat} {mark cs : List Char} (hm : IsMark mark)
    (h : DigitsText 10 n (mark ++ cs)) : False := by
  obtain ⟨-, ds, hds, -⟩ := h
  cases hm <;>
  · obtain ⟨d, -, hd, -⟩ := exists_mem_of_forall₂ hds (.tail _ (.head _))
    cases hd

/-! ### Signs -/

/-- Behind a sign, if there is one, digits are read as their number with that sign. -/
theorem signed?_eq_some_iff {base : Nat} {m : Int} {cs : List Char} :
    signed? base cs = some m ↔
      ∃ s sign n ds, SignText s sign ∧ DigitsText base n ds ∧ cs = sign ++ ds ∧ m = s * n ∧
        Fits m := by
  unfold signed?
  rw [Option.filter_eq_some_iff, decide_eq_true_eq]
  constructor
  · rintro ⟨h, hfits⟩
    split at h
    all_goals
      obtain ⟨_, hvalue, rfl⟩ := Option.map_eq_some_iff.1 h
      obtain ⟨n, hn, ⟨⟩⟩ := Option.bind_eq_some_iff.1 hvalue
      have hdigits := natural?_eq_some_iff.1 hn
    · exact ⟨-1, _, n, _, .minus, hdigits, rfl, by simp, hfits⟩
    · exact ⟨1, _, n, _, .plus, hdigits, rfl, by simp, hfits⟩
    · exact ⟨1, _, n, _, .none, hdigits, rfl, by simp, hfits⟩
  · rintro ⟨s, sign, n, ds, hs, hdigits, rfl, rfl, hfits⟩
    have hn := natural?_eq_some_iff.2 hdigits
    refine ⟨?_, hfits⟩
    cases hs with
    | minus => simp [hn]
    | plus => simp [hn]
    | none =>
      rw [List.nil_append]
      split
      · exact absurd rfl (hdigits.not_sign '-' (.head _)).2
      · exact absurd rfl (hdigits.not_sign '+' (.head _)).1
      · simp [hn]

theorem MagnitudeText.not_sign {m : Int} {cs : List Char} (h : MagnitudeText m cs) :
    ∀ c ∈ cs.head?, c ≠ '+' ∧ c ≠ '-' := by
  cases h with
  | decimal h => exact fun c hc => h.not_sign c (List.mem_of_mem_head? hc)
  | hexadecimal hm _ _ =>
    cases hm <;>
    · rintro c ⟨⟩
      decide

/-- Without its first sign, a numeral is read as its number. -/
theorem magnitude?_eq_some_iff {m : Int} {cs : List Char} :
    magnitude? cs = some m ↔ MagnitudeText m cs ∧ Fits m := by
  constructor
  · intro h
    unfold magnitude? at h
    split at h
    · cases h
    · cases h
    · obtain ⟨s, sign, n, ds, hs, hdigits, rfl, rfl, hfits⟩ := signed?_eq_some_iff.1 h
      exact ⟨.hexadecimal .lower hs hdigits, hfits⟩
    · obtain ⟨s, sign, n, ds, hs, hdigits, rfl, rfl, hfits⟩ := signed?_eq_some_iff.1 h
      exact ⟨.hexadecimal .upper hs hdigits, hfits⟩
    next hplus hminus _ _ =>
      obtain ⟨s, sign, n, ds, hs, hdigits, rfl, rfl, hfits⟩ := signed?_eq_some_iff.1 h
      cases hs with
      | none =>
        rw [Int.one_mul] at hfits ⊢
        exact ⟨.decimal hdigits, hfits⟩
      | plus => exact absurd rfl (hplus ds)
      | minus => exact absurd rfl (hminus ds)
  · rintro ⟨h, hfits⟩
    cases h with
    | hexadecimal hm hs hdigits =>
      cases hm <;> exact signed?_eq_some_iff.2 ⟨_, _, _, _, hs, hdigits, rfl, rfl, hfits⟩
    | @decimal n _ hdigits =>
      unfold magnitude?
      split
      · exact absurd rfl (hdigits.not_sign '+' (.head _)).1
      · exact absurd rfl (hdigits.not_sign '-' (.head _)).2
      · exact (DigitsText.not_mark .lower hdigits).elim
      · exact (DigitsText.not_mark .upper hdigits).elim
      · exact signed?_eq_some_iff.2
          ⟨1, [], n, _, .none, hdigits, rfl, (Int.one_mul _).symm, hfits⟩

/-- **A numeral is read as its number**, if that fits. -/
theorem parse_of_numeralText {n : Int} {cs : List Char} (h : NumeralText n cs) :
    parse cs = if Fits n then .ok n else .error .overflow := by
  obtain ⟨hs, htext, hfits⟩ := h
  have hm := magnitude?_eq_some_iff.2 ⟨htext, hfits⟩
  cases hs with
  | minus =>
    rw [Int.neg_one_mul]
    simp only [List.singleton_append, parse, hm, Option.elim_some, opposite]
  | plus =>
    rw [Int.one_mul, if_pos hfits]
    simp only [List.singleton_append, parse, hm, Option.elim_some]
  | none =>
    rw [Int.one_mul, if_pos hfits, List.nil_append]
    unfold parse
    split
    · exact absurd rfl (htext.not_sign '-' rfl).2
    · exact absurd rfl (htext.not_sign '+' rfl).1
    · rw [hm, Option.elim_some]

/-- **No other text is read.** -/
theorem parse_of_not_numeralText {cs : List Char} (h : ∀ n, ¬ NumeralText n cs) :
    parse cs = .error .malformed := by
  have hnone {s : Int} {sign rest : List Char} (hs : SignText s sign) (hcs : cs = sign ++ rest) :
      magnitude? rest = none := by
    rw [Option.eq_none_iff_forall_ne_some]
    intro m hm
    obtain ⟨htext, hfits⟩ := magnitude?_eq_some_iff.1 hm
    exact h _ (hcs ▸ NumeralText.mk hs htext hfits)
  unfold parse
  split
  · rw [hnone .minus rfl, Option.elim_none]
  · rw [hnone .plus rfl, Option.elim_none]
  · rw [hnone .none rfl, Option.elim_none]

/-- **Which texts are read as numbers**: the numerals with a number that fits. -/
theorem parse_eq_ok_iff {n : Int} {cs : List Char} :
    parse cs = .ok n ↔ NumeralText n cs ∧ Fits n := by
  constructor
  · intro h
    by_cases htext : ∃ m, NumeralText m cs
    · obtain ⟨m, htext⟩ := htext
      rw [parse_of_numeralText htext] at h
      split at h
      next hfits =>
        cases h
        exact ⟨htext, hfits⟩
      next => cases h
    · rw [parse_of_not_numeralText fun m hm => htext ⟨m, hm⟩] at h
      cases h
  · rintro ⟨htext, hfits⟩
    rw [parse_of_numeralText htext, if_pos hfits]

/-! ### At most one sign -/

theorem IsMark.not_sign {mark : List Char} (h : IsMark mark) : ∀ c ∈ mark, c ≠ '+' ∧ c ≠ '-' := by
  cases h <;> simp

theorem UnsignedText.not_sign {n : Nat} {cs : List Char} (h : UnsignedText n cs) :
    ∀ c ∈ cs, c ≠ '+' ∧ c ≠ '-' := by
  cases h with
  | decimal h => exact h.not_sign
  | hexadecimal hm h =>
    intro c hc
    rcases List.mem_append.1 hc with hc | hc
    · exact hm.not_sign c hc
    · exact h.not_sign c hc

/-- A numeral with one sign at most has no other sign than its first character. -/
theorem OneSign.tail {n : Int} {cs : List Char} (h : OneSign n cs) :
    ∀ c ∈ cs.tail, c ≠ '+' ∧ c ≠ '-' := by
  obtain ⟨hs, h, -⟩ := h
  cases hs with
  | none => exact fun c hc => h.not_sign c (List.mem_of_mem_tail hc)
  | plus | minus => exact h.not_sign

theorem UnsignedText.magnitudeText {n : Nat} {cs : List Char} (h : UnsignedText n cs) :
    MagnitudeText n cs := by
  cases h with
  | decimal h => exact .decimal h
  | hexadecimal hm h => exact (Int.one_mul n) ▸ .hexadecimal hm .none h

/-- A numeral with one sign at most has a number that fits, as its magnitude does. -/
theorem OneSign.fits {n : Int} {cs : List Char} (h : OneSign n cs) : Fits n := by
  obtain ⟨hs, -, hn⟩ := h
  cases hs <;> exact ⟨by omega, by omega⟩

theorem OneSign.numeralText {n : Int} {cs : List Char} (h : OneSign n cs) : NumeralText n cs := by
  obtain ⟨hs, h, hn⟩ := h
  exact .mk hs h.magnitudeText ⟨by omega, by omega⟩

/-- **A numeral has one sign at most**, unless a second one stands behind the mark. -/
theorem numeralText_iff_oneSign {n : Int} {cs : List Char} (h : ¬ SignBehindMark cs) :
    NumeralText n cs ↔ OneSign n cs := by
  constructor
  · rintro ⟨hs, htext, hfits⟩
    cases htext with
    | decimal hdigits => exact .mk hs (.decimal hdigits) (by have := hfits.2; omega)
    | hexadecimal hm hs' hdigits =>
      cases hs' with
      | none =>
        rw [Int.one_mul] at hfits ⊢
        exact .mk hs (.hexadecimal hm hdigits) (by have := hfits.2; omega)
      | plus => exact absurd ⟨_, _, _, _, _, hs, hm, .inl rfl, rfl⟩ h
      | minus => exact absurd ⟨_, _, _, _, _, hs, hm, .inr rfl, rfl⟩ h
  · exact OneSign.numeralText

end StackMachine.Text.Numeral
