import StackMachine.Proofs.Assembly.Labels
import StackMachine.Proofs.Numeral

/-!
# What operands are read as

The operand of an instruction is taken as a number when it is a numeral, and the number must have
room in the instruction; a branch with a listing number has room for what remains when that is taken
off. Neither the number nor what remains may leave 64 bits. Everything that can be wrong with an
operand is one of eight problems, each with its own cause (`OperandProblem`), and an instruction is
rejected exactly for one of these (`Placed.instruction_eq_error_iff`). So a text that is no numeral
is no operand of an instruction that needs a number (`numerals_as_operands`).
-/

namespace StackMachine

namespace Immediate

/-- The number that an operand is. -/
def number : (i : Immediate) → i.Operand → Int
  | .none, _ => 0
  | .i8, v => v.toInt
  | .i16, v | .branchOffset, v => v.toInt
  | .localIndex, v => v.toNat

/-- The numbers that operands are. -/
def Holds : Immediate → Int → Prop
  | .none, _ => False
  | .i8, n => -128 ≤ n ∧ n ≤ 127
  | .i16, n | .branchOffset, n => -32768 ≤ n ∧ n ≤ 32767
  | .localIndex, n => 0 ≤ n ∧ n ≤ 255

end Immediate

namespace Assembly

open Text

/-! ### What is wrong with an operand -/

/-- What the number of an operand is counted from: the listing number of a branch, or nothing. -/
def Placed.origin (p : Placed) : Immediate → Int
  | .branchOffset => p.listedAt.getD 0
  | _ => 0

/-- An operand is a number and no label. -/
def IsNumber (i : Immediate) (operand : String) : Prop :=
  i ≠ .none ∧ (i = .branchOffset → startsLabel operand = false)

/-- What is wrong with the operand of an instruction, once the labels are laid out. -/
inductive OperandProblem (layout : Layout) (p : Placed) : Problem → Prop
  /-- There is one that is not needed. -/
  | unexpected {operand : String} (hi : p.opcode.immediate = .none)
      (ho : p.operand = some operand) : OperandProblem layout p (.unexpectedOperand p.opcode)
  /-- There is none, and one is needed. -/
  | missing (hi : p.opcode.immediate ≠ .none) (ho : p.operand = none) :
      OperandProblem layout p (.missingOperand p.opcode)
  /-- It is a label that no line defines. -/
  | undefinedLabel {label : String} (hi : p.opcode.immediate = .branchOffset)
      (ho : p.operand = some label) (hl : startsLabel label = true)
      (ht : layout.offset? label = none) : OperandProblem layout p (.undefinedLabel label)
  /-- It is a label too far away. -/
  | outOfReach {label : String} {target : Nat} (hi : p.opcode.immediate = .branchOffset)
      (ho : p.operand = some label) (hl : startsLabel label = true)
      (ht : layout.offset? label = some target) (hr : ¬ InReach (target - p.offset)) :
      OperandProblem layout p (.branchOutOfRange label (target - p.offset))
  /-- It should be a number and is no numeral. -/
  | invalid {operand : String} (hi : IsNumber p.opcode.immediate operand)
      (ho : p.operand = some operand) (hn : ∀ n, ¬ Numeral.NumeralText n operand.toList) :
      OperandProblem layout p (.invalidOperand p.opcode operand)
  /-- It is a number that leaves 64 bits by its first sign. -/
  | negated {operand : String} {n : Int} (hi : IsNumber p.opcode.immediate operand)
      (ho : p.operand = some operand) (hn : Numeral.NumeralText n operand.toList)
      (hf : ¬ Numeral.Fits n) : OperandProblem layout p (.overflow .negation)
  /-- It is a number that leaves 64 bits when the listing number is taken off. -/
  | subtracted {operand : String} {n : Int} (hi : IsNumber p.opcode.immediate operand)
      (ho : p.operand = some operand) (hn : Numeral.NumeralText n operand.toList)
      (hf : Numeral.Fits n) (hd : ¬ Numeral.Fits (n - p.origin p.opcode.immediate)) :
      OperandProblem layout p (.overflow .subtraction)
  /-- It is a number that the instruction has no room for. -/
  | outOfRange {operand : String} {n : Int} (hi : IsNumber p.opcode.immediate operand)
      (ho : p.operand = some operand) (hn : Numeral.NumeralText n operand.toList)
      (hf : Numeral.Fits n) (hd : Numeral.Fits (n - p.origin p.opcode.immediate))
      (hh : ¬ p.opcode.immediate.Holds (n - p.origin p.opcode.immediate)) :
      OperandProblem layout p
        (.operandOutOfRange p.opcode (n - p.origin p.opcode.immediate))

/-! ### Numbers -/

namespace Placed

/-- A number as an operand, if there is room for it. -/
def fit (p : Placed) (n : Int) : (i : Immediate) → Except Problem i.Operand
  | .none => .ok ()
  | .i8 => p.int8 n
  | .i16 | .branchOffset => p.int16 n
  | .localIndex => p.index n

variable {p : Placed} {layout : Layout} {i : Immediate} {operand : String}

theorem fit_of_holds {n : Int} (h : i.Holds n) : ∃ v, p.fit n i = .ok v ∧ i.number v = n := by
  cases i with
  | none => exact h.elim
  | i8 =>
    have hlt : -128 ≤ n ∧ n < 128 := ⟨h.1, Int.lt_add_one_of_le h.2⟩
    exact ⟨Int8.ofInt n, if_pos hlt, Int8.toInt_ofInt_of_le hlt.1 hlt.2⟩
  | i16 | branchOffset =>
    have hlt : -32768 ≤ n ∧ n < 32768 := ⟨h.1, Int.lt_add_one_of_le h.2⟩
    exact ⟨Int16.ofInt n, if_pos hlt, Int16.toInt_ofInt_of_le hlt.1 hlt.2⟩
  | localIndex =>
    have hlt : 0 ≤ n ∧ n < 256 := ⟨h.1, Int.lt_add_one_of_le h.2⟩
    refine ⟨UInt8.ofNat n.toNat, if_pos hlt, ?_⟩
    show ((UInt8.ofNat n.toNat).toNat : Int) = n
    rw [UInt8.toNat_ofNat_of_lt' (show n.toNat < 2 ^ 8 by omega), Int.toNat_of_nonneg hlt.1]

theorem fit_of_not_holds {n : Int} (hi : i ≠ .none) (h : ¬ i.Holds n) :
    p.fit n i = .error (.operandOutOfRange p.opcode n) := by
  cases i with
  | none => exact absurd rfl hi
  | i8 | i16 | branchOffset | localIndex =>
    exact if_neg fun hlt => h ⟨hlt.1, Int.le_of_lt_add_one hlt.2⟩

/-- What has room in an instruction fits into 64 bits. -/
theorem fits_of_holds {n : Int} (h : i.Holds n) : Numeral.Fits n := by
  apply Numeral.fits_of_natAbs_lt
  cases i with
  | none => exact h.elim
  | i8 | i16 | branchOffset | localIndex =>
    obtain ⟨hle, hle'⟩ := h
    omega

theorem number_of_numeralText {n : Int} (hn : Numeral.NumeralText n operand.toList) :
    p.number operand = if Numeral.Fits n then .ok n else .error (.overflow .negation) := by
  rw [number, Numeral.parse_of_numeralText hn]
  by_cases hf : Numeral.Fits n
  · rw [if_pos hf, if_pos hf]
  · rw [if_neg hf, if_neg hf]

theorem number_of_not_numeralText (hn : ∀ n, ¬ Numeral.NumeralText n operand.toList) :
    p.number operand = .error (.invalidOperand p.opcode operand) := by
  rw [number, Numeral.parse_of_not_numeralText hn]

section Number

variable (hi : IsNumber i operand) (ho : p.operand = some operand)

include hi ho

theorem operandValue_of_number_error {problem : Problem} (hn : p.number operand = .error problem) :
    p.operandValue layout i = .error problem := by
  have htext : p.operandText = .ok operand := operandText_of_some ho
  cases i with
  | none => exact absurd rfl hi.1
  | i8 | i16 | localIndex => simp [operandValue, htext, hn, bind, Except.bind]
  | branchOffset => simp [operandValue, htext, hn, hi.2 rfl, bind, Except.bind]

/-- An operand that is no label is a number, less what that is counted from. -/
theorem operandValue_of_number {n : Int} (hn : p.number operand = .ok n)
    (hd : Numeral.Fits (n - p.origin i)) :
    p.operandValue layout i = p.fit (n - p.origin i) i := by
  have htext : p.operandText = .ok operand := operandText_of_some ho
  cases i with
  | none => exact absurd rfl hi.1
  | i8 | i16 | localIndex => simp [operandValue, htext, hn, fit, origin, bind, Except.bind]
  | branchOffset =>
    have hless : p.lessListing n = .ok (n - p.origin .branchOffset) := if_pos hd
    simp [operandValue, htext, hn, hless, hi.2 rfl, fit, bind, Except.bind]

/-- Only with a listing number can the difference leave 64 bits. -/
theorem operandValue_of_subtraction {n : Int} (hn : p.number operand = .ok n)
    (hf : Numeral.Fits n) (hd : ¬ Numeral.Fits (n - p.origin i)) :
    p.operandValue layout i = .error (.overflow .subtraction) := by
  have htext : p.operandText = .ok operand := operandText_of_some ho
  cases i with
  | none => exact absurd rfl hi.1
  | i8 | i16 | localIndex => exact absurd ((Int.sub_zero n).symm ▸ hf) hd
  | branchOffset =>
    have hless : p.lessListing n = .error (.overflow .subtraction) := if_neg hd
    simp [operandValue, htext, hn, hless, hi.2 rfl, bind, Except.bind]

end Number

/-! ### Instructions -/

theorem operandValue_of_none (hi : i = .none) (ho : p.operand = none) :
    ∃ v, p.operandValue layout i = .ok v := by
  subst hi
  exact ⟨(), by simp [operandValue, ho]⟩

theorem operandValue_of_unexpected (hi : i = .none) (ho : p.operand = some operand) :
    p.operandValue layout i = .error (.unexpectedOperand p.opcode) := by
  subst hi
  simp [operandValue, ho]

theorem operandValue_of_missing (hi : i ≠ .none) (ho : p.operand = none) :
    p.operandValue layout i = .error (.missingOperand p.opcode) := by
  cases i with
  | none => exact absurd rfl hi
  | i8 | i16 | branchOffset | localIndex =>
    simp [operandValue, operandText, ho, bind, Except.bind]

theorem instruction_of_operandValue {v : p.opcode.immediate.Operand}
    (h : p.operandValue layout p.opcode.immediate = .ok v) :
    p.instruction layout = .ok (.ofOpcode p.opcode v) :=
  instruction_eq_ok_iff.2 ⟨v, h, rfl⟩

end Placed

/-- What is wrong with an operand is reported. -/
theorem OperandProblem.instruction {layout : Layout} {p : Placed} {problem : Problem}
    (h : OperandProblem layout p problem) :
    p.instruction layout = .error { line := p.line, problem } := by
  cases h with
  | undefinedLabel hi ho hl ht => exact Placed.instruction_of_undefined hi ho hl ht
  | outOfReach hi ho hl ht hr => exact Placed.instruction_of_outOfReach hi ho hl ht hr
  | unexpected hi ho =>
    exact Placed.instruction_of_operandValue_error (Placed.operandValue_of_unexpected hi ho)
  | missing hi ho =>
    exact Placed.instruction_of_operandValue_error (Placed.operandValue_of_missing hi ho)
  | invalid hi ho hn =>
    apply Placed.instruction_of_operandValue_error
    exact Placed.operandValue_of_number_error hi ho (Placed.number_of_not_numeralText hn)
  | negated hi ho hn hf =>
    apply Placed.instruction_of_operandValue_error
    apply Placed.operandValue_of_number_error hi ho
    rw [Placed.number_of_numeralText hn, if_neg hf]
  | subtracted hi ho hn hf hd =>
    apply Placed.instruction_of_operandValue_error
    refine Placed.operandValue_of_subtraction hi ho ?_ hf hd
    rw [Placed.number_of_numeralText hn, if_pos hf]
  | outOfRange hi ho hn hf hd hh =>
    apply Placed.instruction_of_operandValue_error
    have hnumber := (Placed.number_of_numeralText (p := p) hn).trans (if_pos hf)
    rw [Placed.operandValue_of_number hi ho hnumber hd, Placed.fit_of_not_holds hi.1 hh]

namespace Placed

variable {p : Placed} {layout : Layout}

/-- A branch to a label is read, or something is wrong with the label. -/
theorem instruction_cases_of_label {label : String} (hi : p.opcode.immediate = .branchOffset)
    (ho : p.operand = some label) (hl : startsLabel label = true) :
    (∃ i, p.instruction layout = .ok i) ∨ ∃ problem, OperandProblem layout p problem := by
  cases ht : layout.offset? label with
  | none => exact .inr ⟨_, .undefinedLabel hi ho hl ht⟩
  | some target =>
    by_cases hr : InReach (target - p.offset)
    · obtain ⟨i, hread, -⟩ := instruction_of_inReach hi ho hl ht hr
      exact .inl ⟨i, hread⟩
    · exact .inr ⟨_, .outOfReach hi ho hl ht hr⟩

/-- An instruction with a number that it has room for is read. -/
theorem instruction_of_holds {operand : String} {n : Int}
    (hi : IsNumber p.opcode.immediate operand) (ho : p.operand = some operand)
    (hn : Numeral.NumeralText n operand.toList) (hf : Numeral.Fits n)
    (hh : p.opcode.immediate.Holds (n - p.origin p.opcode.immediate)) :
    ∃ v, p.instruction layout = .ok (.ofOpcode p.opcode v) ∧
      p.opcode.immediate.number v = n - p.origin p.opcode.immediate := by
  obtain ⟨v, hv, hvalue⟩ := fit_of_holds (p := p) hh
  have hnumber : p.number operand = .ok n := (number_of_numeralText hn).trans (if_pos hf)
  refine ⟨v, instruction_of_operandValue ?_, hvalue⟩
  exact (operandValue_of_number hi ho hnumber (fits_of_holds hh)).trans hv

/-- An instruction with a number is read, or something is wrong with the number. -/
theorem instruction_cases_of_number {operand : String}
    (hi : IsNumber p.opcode.immediate operand) (ho : p.operand = some operand) :
    (∃ i, p.instruction layout = .ok i) ∨ ∃ problem, OperandProblem layout p problem := by
  by_cases hn : ∃ n, Numeral.NumeralText n operand.toList
  · obtain ⟨n, hn⟩ := hn
    by_cases hf : Numeral.Fits n
    · by_cases hh : p.opcode.immediate.Holds (n - p.origin p.opcode.immediate)
      · obtain ⟨v, hv, -⟩ := instruction_of_holds hi ho hn hf hh
        exact .inl ⟨_, hv⟩
      · by_cases hd : Numeral.Fits (n - p.origin p.opcode.immediate)
        · exact .inr ⟨_, .outOfRange hi ho hn hf hd hh⟩
        · exact .inr ⟨_, .subtracted hi ho hn hf hd⟩
    · exact .inr ⟨_, .negated hi ho hn hf⟩
  · exact .inr ⟨_, .invalid hi ho fun n h => hn ⟨n, h⟩⟩

/-- An instruction is read, or something is wrong with its operand. -/
theorem instruction_cases (p : Placed) (layout : Layout) :
    (∃ i, p.instruction layout = .ok i) ∨ ∃ problem, OperandProblem layout p problem := by
  by_cases hi : p.opcode.immediate = .none
  · cases ho : p.operand with
    | none =>
      obtain ⟨v, hv⟩ : ∃ v, p.operandValue layout p.opcode.immediate = .ok v :=
        operandValue_of_none hi ho
      exact .inl ⟨_, instruction_of_operandValue hv⟩
    | some operand => exact .inr ⟨_, .unexpected hi ho⟩
  · cases ho : p.operand with
    | none => exact .inr ⟨_, .missing hi ho⟩
    | some operand =>
      by_cases hl : p.opcode.immediate = .branchOffset ∧ startsLabel operand = true
      · exact instruction_cases_of_label hl.1 ho hl.2
      · refine instruction_cases_of_number ⟨hi, fun hb => ?_⟩ ho
        exact Bool.eq_false_iff.2 fun hs => hl ⟨hb, hs⟩

/-- **An instruction is rejected exactly for what is wrong with its operand.** -/
theorem instruction_eq_error_iff {e : Error} :
    p.instruction layout = .error e ↔ e.line = p.line ∧ OperandProblem layout p e.problem := by
  constructor
  · intro h
    rcases p.instruction_cases layout with ⟨i, hi⟩ | ⟨problem, hproblem⟩
    · cases h.symm.trans hi
    · cases h.symm.trans hproblem.instruction
      exact ⟨rfl, hproblem⟩
  · rintro ⟨hline, hproblem⟩
    rw [hproblem.instruction, ← hline]

end Placed

/-! ### Numerals in a source -/

/-- **Numbers follow one grammar.** Where an instruction needs a number, or a branch has an operand
that is no label, the operand is taken for a number exactly when it is a numeral, and then it is
that number, less the listing number of a branch. A number without room is rejected, and so is any
text that is no numeral. Numerals have one sign at most, unless one stands behind the mark of a
hexadecimal number. Those with one sign at most fit into 64 bits; where another one does not, or the
difference to the listing number, the assembly ends with that. -/
theorem numerals_as_operands {source : String} {layout : Layout}
    (hlayout : Layout.ofSource source.toList = .ok layout) {k : Nat} {text : List Char}
    {line : Line} (ht : (lines source.toList)[k]? = some text)
    (hl : Line.parse? (stripComment text) = some line) {op : Opcode} {operand : String}
    (hs : line.statement = some { mnemonic := op.mnemonic, operand := some operand })
    (hi : IsNumber op.immediate operand) :
    ∃ p ∈ layout.placed, p.line = k + 1 ∧ p.opcode = op ∧ p.operand = some operand ∧
      Layout.listingNumber (stripComment text) line.listedAt = .ok p.listedAt ∧
      (∀ n, Numeral.NumeralText n operand.toList → Numeral.Fits n →
        op.immediate.Holds (n - p.origin op.immediate) →
          ∃ v, p.instruction layout = .ok (.ofOpcode op v) ∧
            op.immediate.number v = n - p.origin op.immediate) ∧
      (∀ n, Numeral.NumeralText n operand.toList → Numeral.Fits n →
        Numeral.Fits (n - p.origin op.immediate) →
          ¬ op.immediate.Holds (n - p.origin op.immediate) →
            p.instruction layout = .error
              { line := k + 1, problem := .operandOutOfRange op (n - p.origin op.immediate) }) ∧
      ((∀ n, ¬ Numeral.NumeralText n operand.toList) →
        p.instruction layout = .error { line := k + 1, problem := .invalidOperand op operand }) ∧
      (∀ n, Numeral.NumeralText n operand.toList → ¬ Numeral.Fits n →
        p.instruction layout = .error { line := k + 1, problem := .overflow .negation }) ∧
      (∀ n, Numeral.NumeralText n operand.toList → Numeral.Fits n →
        ¬ Numeral.Fits (n - p.origin op.immediate) →
          p.instruction layout = .error { line := k + 1, problem := .overflow .subtraction }) ∧
      (¬ Numeral.SignBehindMark operand.toList →
        ∀ n, Numeral.NumeralText n operand.toList ↔ Numeral.OneSign n operand.toList) ∧
      (∀ n, Numeral.OneSign n operand.toList → Numeral.Fits n) ∧
      (∀ e, p.instruction layout = .error e →
        ∃ e', assemble source = .error e' ∧ (e' = e ∨ e'.line < e.line)) ∧
      ∀ code, assemble source = .ok code →
        ∃ i, p.instruction layout = .ok i ∧ HoldsAt code p.offset i.bytes := by
  obtain ⟨rs, hrs, hnodup, rfl⟩ := Layout.ofSource_eq_ok_iff.1 hlayout
  obtain ⟨listedAt, hn, hr⟩ := exists_reading_of_lineAt hrs ht hl hs
  have hp := mem_placements_of_entry hr
  have hplaced := Layout.mem_placed_ofReadings.2 hp
  refine ⟨_, hplaced, rfl, rfl, rfl, hn, ?_, ?_, ?_, ?_, ?_,
    fun h n => Numeral.numeralText_iff_oneSign h, fun n => Numeral.OneSign.fits,
    fun _ => assemble_of_instruction_error hrs hnodup hp,
    fun _ hcode => holdsAt_of_placed hcode hlayout hplaced⟩
  · intro n hnumeral hfits hholds
    exact @Placed.instruction_of_holds ⟨k + 1, extent (rs.take k), op, some operand, listedAt⟩ _ _ _
      hi rfl hnumeral hfits hholds
  · intro n hnumeral hfits hdifference hholds
    exact (OperandProblem.outOfRange hi rfl hnumeral hfits hdifference hholds).instruction
  · intro hnumeral
    exact (OperandProblem.invalid hi rfl hnumeral).instruction
  · intro n hnumeral hfits
    exact (OperandProblem.negated hi rfl hnumeral hfits).instruction
  · intro n hnumeral hfits hdifference
    exact (OperandProblem.subtracted hi rfl hnumeral hfits hdifference).instruction

/-- A negative target in hexadecimal digits on a line with a listing number, which is taken off. -/
theorem numerals_as_operands_listed_target :
    ∃ layout p v, Layout.ofSource "nop\n7: goto -0x0A // back".toList = .ok layout ∧
      p ∈ layout.placed ∧ p.instruction layout = .ok (.ofOpcode .goto v) ∧
      Immediate.branchOffset.number v = -17 := by
  have hlayout : Layout.ofSource "nop\n7: goto -0x0A // back".toList =
      .ok { labels := []
            placed := #[
              { line := 1, offset := 0, opcode := .nop, operand := none, listedAt := none },
              { line := 2, offset := 1, opcode := .goto, operand := some "-0x0A",
                listedAt := some 7 }]
            size := 4 } := by decide +kernel
  obtain ⟨hnumeral, hfits⟩ : Numeral.NumeralText (-10) "-0x0A".toList ∧ Numeral.Fits (-10) :=
    Numeral.parse_eq_ok_iff.1 (by decide +kernel)
  obtain ⟨p, hp, -, -, -, hn, hholds, -⟩ :=
    @numerals_as_operands _ _ hlayout 1 "7: goto -0x0A // back".toList
      ⟨some "7", none, some ⟨"goto", some "-0x0A"⟩⟩ (by decide +kernel) (by decide +kernel) .goto
      "-0x0A" (by decide +kernel) ⟨by decide, fun _ => by decide +kernel⟩
  have hseven : p.listedAt = some 7 :=
    Except.ok.inj (hn.symm.trans (show _ = Except.ok (some 7) by decide +kernel))
  have horigin : p.origin .branchOffset = 7 := by rw [Placed.origin, hseven, Option.getD_some]
  obtain ⟨v, hv, hvalue⟩ := hholds (-10) hnumeral hfits (by
    change Immediate.Holds .branchOffset (-10 - p.origin .branchOffset)
    rw [horigin]
    exact ⟨by decide, by decide⟩)
  change Immediate.branchOffset.number v = -10 - p.origin .branchOffset at hvalue
  rw [horigin] at hvalue
  exact ⟨_, p, v, hlayout, hp, hv, hvalue⟩

/-- A sign behind the mark is read, though the text has more than the one sign in front. -/
theorem assemble_sign_behind_mark :
    assemble "bipush 0x-5" = .ok #[0x10, 0xfb] ∧ ∀ n, ¬ Numeral.OneSign n "0x-5".toList := by
  refine ⟨by decide +kernel, ?_⟩
  intro n h
  exact (h.tail '-' (by simp)).2 rfl

end Assembly

end StackMachine
