import StackMachine.Proofs.Assembly.Decoding
import StackMachine.Proofs.Assembly.Execution
import StackMachine.Proofs.Assembly.Replacement
import StackMachine.Proofs.Assembly.Spelling

/-!
# Branches to labels

A branch to a label holds the distance from its own offset to the one that the label stands for,
if 16 bits can hold it, and is rejected otherwise (`Placed.instruction_of_inReach` and the lemmas
beside it). The listing number of the line does not count for that. So the label can be replaced by
a number: by the distance, or behind a listing number by the sum of both (`labels_resolved`).
-/

namespace StackMachine.Assembly

open Text

/-- A branch can hold the distance. -/
def InReach (distance : Int) : Prop := -32768 ≤ distance ∧ distance ≤ 32767

instance : DecidablePred InReach := fun distance =>
  inferInstanceAs (Decidable (-32768 ≤ distance ∧ distance ≤ 32767))

theorem InReach.toInt {distance : Int} (h : InReach distance) :
    (Int16.ofInt distance).toInt = distance :=
  Int16.toInt_ofInt_of_le h.1 (Int.lt_add_one_of_le h.2)

/-! ### The operand of a branch -/

namespace Placed

variable {p : Placed} {layout : Layout}

theorem instruction_eq_map (p : Placed) (layout : Layout) :
    p.instruction layout =
      ((p.operandValue layout p.opcode.immediate).map (Instruction.ofOpcode p.opcode)).mapError
        fun problem => { line := p.line, problem } := by
  unfold instruction
  cases p.operandValue layout p.opcode.immediate <;> rfl

theorem line_of_instruction_error {e : Error} (h : p.instruction layout = .error e) :
    e.line = p.line := by
  unfold instruction at h
  split at h
  · cases h
  · cases h
    rfl

section Branch

variable (hb : p.opcode.immediate = .branchOffset)

include hb

theorem instruction_of_branchOffset {v : Int16}
    (hv : p.operandValue layout .branchOffset = .ok v) :
    ∃ i, p.instruction layout = .ok i ∧ i.bytes = p.opcode.byte :: BigEndian.bytes v := by
  have hvalue : ∃ w, p.operandValue layout p.opcode.immediate = .ok w ∧
      p.opcode.immediate.bytes w = BigEndian.bytes v := by
    rw [hb]
    exact ⟨v, hv, rfl⟩
  obtain ⟨w, hw, hbytes⟩ := hvalue
  exact ⟨_, instruction_eq_ok_iff.2 ⟨w, hw, rfl⟩, by rw [Instruction.bytes_ofOpcode, hbytes]⟩

theorem instruction_of_error {problem : Problem}
    (hv : p.operandValue layout .branchOffset = .error problem) :
    p.instruction layout = .error { line := p.line, problem } := by
  apply instruction_of_operandValue_error
  rw [hb]
  exact hv

/-- A branch is the same instruction with any operand that is read as the same distance. -/
theorem instruction_of_operand {other : Option String}
    (h : ({ p with operand := other } : Placed).operandValue layout .branchOffset =
      p.operandValue layout .branchOffset) :
    ({ p with operand := other } : Placed).instruction layout = p.instruction layout := by
  have hvalue : ({ p with operand := other } : Placed).operandValue layout p.opcode.immediate =
      p.operandValue layout p.opcode.immediate := by
    rw [hb]
    exact h
  rw [instruction_eq_map, instruction_eq_map]
  exact congrArg (fun value => (value.map (Instruction.ofOpcode p.opcode)).mapError fun problem =>
    ({ line := p.line, problem } : Error)) hvalue

variable {label : String} (hl : p.operand = some label) (hs : startsLabel label = true)

include hl hs

omit hb in
theorem operandValue_of_inReach {target : Nat} (ht : layout.offset? label = some target)
    (hr : InReach (target - p.offset)) :
    p.operandValue layout .branchOffset = .ok (Int16.ofInt (target - p.offset)) := by
  rw [operandValue_of_label layout hl hs]
  exact distance_eq_ok_iff.2 ⟨target, ht, ⟨hr.1, Int.lt_add_one_of_le hr.2⟩, rfl⟩

/-- A branch to a label within reach holds the distance to it. -/
theorem instruction_of_inReach {target : Nat} (ht : layout.offset? label = some target)
    (hr : InReach (target - p.offset)) :
    ∃ i, p.instruction layout = .ok i ∧
      i.bytes = p.opcode.byte :: BigEndian.bytes (Int16.ofInt (target - p.offset)) :=
  instruction_of_branchOffset hb (operandValue_of_inReach hl hs ht hr)

/-- A branch to a label out of reach is rejected with the distance. -/
theorem instruction_of_outOfReach {target : Nat} (ht : layout.offset? label = some target)
    (hr : ¬ InReach (target - p.offset)) :
    p.instruction layout =
      .error { line := p.line, problem := .branchOutOfRange label (target - p.offset) } := by
  apply instruction_of_error hb
  have hout : ¬ (-32768 ≤ (target : Int) - p.offset ∧ (target : Int) - p.offset < 32768) :=
    fun h => hr ⟨h.1, Int.le_of_lt_add_one h.2⟩
  rw [operandValue_of_label layout hl hs]
  simp only [distance, ht, if_neg hout]

/-- A branch to a label that no line defines is rejected. -/
theorem instruction_of_undefined (ht : layout.offset? label = none) :
    p.instruction layout = .error { line := p.line, problem := .undefinedLabel label } := by
  apply instruction_of_error hb
  rw [operandValue_of_label layout hl hs]
  simp only [distance, ht]

/-- A branch to a label within reach is the same as one to the target, counted from the listing
number if there is one. -/
theorem instruction_of_target {target : Nat} (ht : layout.offset? label = some target)
    (hr : InReach (target - p.offset))
    (hfits : (p.listedAt.getD 0 + (target - p.offset)).natAbs < 2 ^ 63) :
    ({ p with
        operand := some (toString (p.listedAt.getD 0 + ((target : Int) - p.offset))) } :
      Placed).instruction layout = p.instruction layout := by
  apply instruction_of_operand hb
  rw [operandValue_of_inReach hl hs ht hr]
  apply operandValue_of_target
  · rw [hr.toInt]
  · rw [hr.toInt]
    exact hfits

end Branch

end Placed

/-! ### The line of a branch -/

/-- What a listing number counts for. -/
theorem listingNumber_eq_ok_iff {text : List Char} {listed : Option String}
    {listedAt : Option Int} :
    Layout.listingNumber text listed = .ok listedAt ↔
      (listed = none ∧ listedAt = none) ∨
        ∃ digits n, listed = some digits ∧ Numeral.signed? 10 digits.toList = some n ∧
          listedAt = some n := by
  cases listed with
  | none => simp [Layout.listingNumber, eq_comm]
  | some digits =>
    cases hn : Numeral.signed? 10 digits.toList <;> simp [Layout.listingNumber, hn, eq_comm]

/-- The digits of a listing number are decimal ones of any script. -/
theorem isDigits_of_parse? {cs : List Char} {line : Line} {digits : String}
    (hl : Line.parse? cs = some line) (hd : line.listedAt = some digits) :
    IsDigits digits.toList := by
  obtain ⟨listing, -, -, hlisting, -⟩ := lineText_of_parse? hl
  rw [hd] at hlisting
  cases hlisting with
  | some _ hdigits _ => exact hdigits

/-- A listing number is not negative, as there is no sign among its digits. -/
theorem listedAt_nonneg {text cs : List Char} {line : Line} {listedAt : Option Int}
    (hl : Line.parse? cs = some line)
    (hn : Layout.listingNumber text line.listedAt = .ok listedAt) : 0 ≤ listedAt.getD 0 := by
  rcases listingNumber_eq_ok_iff.1 hn with ⟨-, rfl⟩ | ⟨digits, n, hd, hsigned, rfl⟩
  · exact Int.le_refl 0
  · have hminus : digits.toList.head? ≠ some '-' := by
      intro hhead
      have hdigit := (isDigits_of_parse? hl hd).2 '-' (List.mem_of_mem_head? hhead)
      revert hdigit
      decide +kernel
    exact Numeral.signed?_nonneg hminus hsigned

/-- In the line of a branch, a number can stand for a label that is a distance away. -/
structure NumberForLabel (source : String) (k : Nat) (text : List Char) (line : Line)
    (label : String) (distance : Int) : Prop where
  /-- The line has the label for its operand. -/
  exists_operandAt : ∃ front back, OperandAt text front label back
  /-- Without a listing number, the distance can stand for it. -/
  plain : ∀ front back, OperandAt text front label back → line.listedAt = none →
    assemble (withLine source (k + 1) (front ++ ((toString distance).toList ++ back))) =
      assemble source
  /-- With one, the sum of both can stand for it, if it is a number of 64 bits. -/
  listed : ∀ front back digits, OperandAt text front label back → line.listedAt = some digits →
    ∃ n, Numeral.signed? 10 digits.toList = some n ∧ (n + distance < 2 ^ 63 →
      assemble (withLine source (k + 1) (front ++ ((toString (n + distance)).toList ++ back))) =
        assemble source)

section Line

variable {source : String} {rs : List Reading}
  (hrs : List.Forall₂ (fun text r => Reads (stripComment text) r) (lines source.toList) rs)
  (hnodup : (rs.filterMap Reading.label).Nodup)

/-- The instruction of a line is laid out behind those of the lines in front of it. -/
theorem mem_placements_of_entry {rs : List Reading} {k : Nat} {label : Option String} {e : Entry}
    (hr : rs[k]? = some { label, entry := some e }) :
    { line := k + 1, offset := extent (rs.take k), opcode := e.opcode, operand := e.operand,
      listedAt := e.listedAt } ∈ placements 1 0 rs :=
  mem_collect_iff.2 ⟨k, _, hr, by
    rw [Nat.add_comm 1, Nat.zero_add]
    rfl⟩

/-- So it can be told from the line. -/
theorem exists_placement_of_entry {k : Nat} {label : Option String} {e : Entry}
    (hr : rs[k]? = some { label, entry := some e }) :
    ∃ p ∈ placements 1 0 rs, p.line = k + 1 ∧ p.opcode = e.opcode ∧ p.operand = e.operand ∧
      p.offset = extent (rs.take k) :=
  ⟨_, mem_placements_of_entry hr, rfl, rfl, rfl, rfl⟩

include hrs

/-- A line with an instruction is read as that instruction. -/
theorem exists_reading_of_lineAt {k : Nat} {text : List Char} {line : Line} {op : Opcode}
    {operand : Option String} (ht : (lines source.toList)[k]? = some text)
    (hl : Line.parse? (stripComment text) = some line)
    (hs : line.statement = some { mnemonic := op.mnemonic, operand }) :
    ∃ listedAt, Layout.listingNumber (stripComment text) line.listedAt = .ok listedAt ∧
      rs[k]? = some { label := line.label, entry := some { opcode := op, operand, listedAt } } := by
  obtain ⟨r, hr, hread⟩ := exists_getElem?_of_forall₂ hrs ht
  cases hread with
  | bare hl' hs' =>
    cases hl.symm.trans hl'
    cases hs.symm.trans hs'
  | entry hl' hs' hop hn =>
    cases hl.symm.trans hl'
    cases hs.symm.trans hs'
    cases Opcode.mnemonic_injective hop
    exact ⟨_, hn, hr⟩

include hnodup

/-- A label stands for the bytes of the statements in front of its line. -/
theorem offset?_eq_some_iff {label : String} {target : Nat} :
    (Layout.ofReadings rs).offset? label = some target ↔
      ∃ (k : Nat) (text : List Char), (lines source.toList)[k]? = some text ∧
        labelIn? text = some label ∧ target = statementsSize ((lines source.toList).take k) := by
  constructor
  · intro h
    obtain ⟨k, r, hr, hlabel, rfl⟩ := Layout.offset?_ofReadings h
    obtain ⟨text, ht, hread⟩ := exists_getElem?_of_forall₂ hrs.flip hr
    exact ⟨k, text, ht, hread.labelIn?.trans hlabel,
      extent_eq_statementsSize (List.forall₂_take k hrs)⟩
  · rintro ⟨k, text, ht, hl, rfl⟩
    exact offset?_of_labelIn? hrs hnodup ht hl

/-- An instruction that is rejected keeps the source from assembling. What is reported is its error,
or the one of an instruction in front of it. -/
theorem assemble_of_instruction_error {p : Placed} (hp : p ∈ placements 1 0 rs) {e : Error}
    (he : p.instruction (.ofReadings rs) = .error e) :
    ∃ e', assemble source = .error e' ∧ (e' = e ∨ e'.line < e.line) := by
  have hinstructions := instructions_of_reads hrs hnodup
  cases hm : (placements 1 0 rs).mapM (·.instruction (.ofReadings rs)) with
  | ok is =>
    obtain ⟨i, -, hi⟩ := exists_mem_of_forall₂ (mapM_eq_ok_iff.1 hm) hp
    cases he.symm.trans hi
  | error e' =>
    refine ⟨e', by rw [assemble, hinstructions, hm]; rfl, ?_⟩
    obtain ⟨before, q, after, hsplit, hbefore, hq⟩ := mapM_eq_error_iff.1 hm
    have hsorted := pairwise_placements 1 0 rs
    rw [hsplit] at hp hsorted
    rcases List.mem_append.1 hp with hp | hp
    · obtain ⟨i, hi⟩ := hbefore p hp
      cases he.symm.trans hi
    · rcases List.mem_cons.1 hp with rfl | hp
      · exact .inl (Except.error.inj (hq.symm.trans he))
      · right
        rw [Placed.line_of_instruction_error he, Placed.line_of_instruction_error hq]
        exact (List.pairwise_cons.1 (List.pairwise_append.1 hsorted).2.1).1 p hp

omit hrs hnodup in
/-- Where a source assembles, the bytes of each instruction stand where it was laid out. -/
theorem holdsAt_of_placed {layout : Layout} {code : Code} (hc : assemble source = .ok code)
    (hlayout : Layout.ofSource source.toList = .ok layout) {p : Placed} (hp : p ∈ layout.placed) :
    ∃ i, p.instruction layout = .ok i ∧ HoldsAt code p.offset i.bytes := by
  obtain ⟨rs, is, hrs, hnodup, his, henc⟩ := assemble_eq_ok_iff.1 hc
  cases hlayout.symm.trans (Layout.ofSource_eq_ok_iff.2 ⟨rs, hrs, hnodup, rfl⟩)
  obtain ⟨i, -, hi⟩ := exists_mem_of_forall₂ his (Layout.mem_placed_ofReadings.1 hp)
  exact ⟨i, hi, (instructionAt_of_placed his henc hp hi).2⟩

/-- A branch to a label within reach can be written with a number: its distance, to which the
listing number of the line is added if there is one. -/
theorem assemble_withLine_target {k : Nat} {text : List Char} {line : Line} {op : Opcode}
    {label : String} {listedAt : Option Int} {target : Nat}
    (ht : (lines source.toList)[k]? = some text)
    (hl : Line.parse? (stripComment text) = some line)
    (hs : line.statement = some { mnemonic := op.mnemonic, operand := some label })
    (hb : op.immediate = .branchOffset) (hlabel : startsLabel label = true)
    (hn : Layout.listingNumber (stripComment text) line.listedAt = .ok listedAt)
    (htarget : (Layout.ofReadings rs).offset? label = some target)
    (hreach : InReach (target - (extent (rs.take k) : Nat)))
    (hfits : listedAt.getD 0 + (target - (extent (rs.take k) : Nat)) < 2 ^ 63)
    (front back : List Char) (hat : OperandAt text front label back) :
    assemble (withLine source (k + 1) (front ++
      ((toString (listedAt.getD 0 + ((target : Int) - (extent (rs.take k) : Nat)))).toList ++
        back))) = assemble source := by
  obtain ⟨listedAt', hn', hr⟩ := exists_reading_of_lineAt hrs ht hl hs
  cases hn.symm.trans hn'
  generalize hnumber : listedAt.getD 0 + ((target : Int) - (extent (rs.take k) : Nat)) = number
  have hnewline : '\n' ∉ front ++ ((toString number).toList ++ back) := by
    have hnot := newline_not_mem_of_mem_lines (List.mem_of_getElem? ht)
    rw [hat.text_eq, List.mem_append, List.mem_append, not_or, not_or] at hnot
    rw [List.mem_append, List.mem_append, not_or, not_or]
    exact ⟨hnot.1, fun h => (char_of_mem_number h).2.2.2 rfl, hnot.2.2⟩
  have hparse := hat.parse? hl hs rfl (isOperand_toString number)
    (fun _ hc => (char_of_mem_number hc).2.1)
    fun h => (char_of_mem_number (List.mem_of_mem_head? h)).2.2.1 rfl
  refine assemble_withLine hrs hnodup hr hnewline
    (.entry hparse rfl rfl (listingNumber_eq_ok_iff.2 (listingNumber_eq_ok_iff.1 hn))) rfl rfl ?_
  have hnonneg := listedAt_nonneg hl hn
  have hsmall := hreach.1
  have hplaced := @Placed.instruction_of_target
    ⟨k + 1, extent (rs.take k), op, some label, listedAt⟩ _ hb _ rfl hlabel _ htarget hreach
    (by simp only; omega)
  rw [← hnumber]
  exact congrArg some hplaced

theorem numberForLabel {k : Nat} {text : List Char} {line : Line} {op : Opcode} {label : String}
    {target : Nat} (ht : (lines source.toList)[k]? = some text)
    (hl : Line.parse? (stripComment text) = some line)
    (hs : line.statement = some { mnemonic := op.mnemonic, operand := some label })
    (hb : op.immediate = .branchOffset) (hlabel : startsLabel label = true)
    (htarget : (Layout.ofReadings rs).offset? label = some target)
    (hreach : InReach (target - (extent (rs.take k) : Nat))) :
    NumberForLabel source k text line label (target - (extent (rs.take k) : Nat)) := by
  obtain ⟨listedAt, hn, -⟩ := exists_reading_of_lineAt hrs ht hl hs
  have hnumber := assemble_withLine_target hrs hnodup ht hl hs hb hlabel hn htarget hreach
  refine ⟨exists_operandAt hl hs rfl, ?_, ?_⟩
  · intro front back hat hnone
    rcases listingNumber_eq_ok_iff.1 hn with ⟨-, rfl⟩ | ⟨digits, -, hsome, -⟩
    · have hsmall := hreach.2
      rw [Option.getD_none, Int.zero_add] at hnumber
      exact hnumber (by omega) front back hat
    · cases hnone.symm.trans hsome
  · intro front back digits hat hsome
    rcases listingNumber_eq_ok_iff.1 hn with ⟨hnone, -⟩ | ⟨digits', n, hsome', hsigned, rfl⟩
    · cases hnone.symm.trans hsome
    · cases hsome.symm.trans hsome'
      exact ⟨n, hsigned, fun hfits => hnumber hfits front back hat⟩

end Line

/-- **A branch to a label holds the distance to it.** In a source that can be laid out, the branch
of a line stands behind the bytes of the statements in front of it, and so does what a label stands
for, be it defined before or behind the branch. The bytes of the branch are its opcode and the
difference of the two offsets, if 16 bits can hold that; else it is rejected with the label and the
difference, and with the label if no line defines it. Nothing of this depends on a listing number.
So a number can stand for the label. -/
theorem labels_resolved {source : String} {layout : Layout}
    (hlayout : Layout.ofSource source.toList = .ok layout) {k : Nat} {text : List Char}
    {line : Line} (ht : (lines source.toList)[k]? = some text)
    (hl : Line.parse? (stripComment text) = some line) {op : Opcode} {label : String}
    (hs : line.statement = some { mnemonic := op.mnemonic, operand := some label })
    (hb : op.immediate = .branchOffset) (hlabel : startsLabel label = true) :
    ∃ p ∈ layout.placed, p.line = k + 1 ∧ p.opcode = op ∧ p.operand = some label ∧
      p.offset = statementsSize ((lines source.toList).take k) ∧
      (∀ target, layout.offset? label = some target ↔
        ∃ (j : Nat) (other : List Char), (lines source.toList)[j]? = some other ∧
          labelIn? other = some label ∧
          target = statementsSize ((lines source.toList).take j)) ∧
      (∀ target : Nat, layout.offset? label = some target → InReach (target - p.offset) →
        (∃ i, p.instruction layout = .ok i ∧
          i.bytes = op.byte :: BigEndian.bytes (Int16.ofInt (target - p.offset))) ∧
        NumberForLabel source k text line label (target - p.offset)) ∧
      (∀ target : Nat, layout.offset? label = some target → ¬ InReach (target - p.offset) →
        p.instruction layout =
          .error { line := p.line, problem := .branchOutOfRange label (target - p.offset) }) ∧
      (layout.offset? label = none →
        p.instruction layout = .error { line := p.line, problem := .undefinedLabel label }) ∧
      (∀ e, p.instruction layout = .error e →
        ∃ e', assemble source = .error e' ∧ (e' = e ∨ e'.line < e.line)) ∧
      ∀ code, assemble source = .ok code →
        ∃ target : Nat, layout.offset? label = some target ∧ InReach (target - p.offset) ∧
          HoldsAt code p.offset
            (op.byte :: BigEndian.bytes (Int16.ofInt (target - p.offset))) := by
  obtain ⟨rs, hrs, hnodup, rfl⟩ := Layout.ofSource_eq_ok_iff.1 hlayout
  obtain ⟨listedAt, hn, hr⟩ := exists_reading_of_lineAt hrs ht hl hs
  obtain ⟨p, hp, hline, hop, hoperand, hoffset⟩ := exists_placement_of_entry hr
  change p.opcode = op at hop
  subst hop
  have hextent : extent (rs.take k) = statementsSize ((lines source.toList).take k) :=
    extent_eq_statementsSize (List.forall₂_take k hrs)
  refine ⟨p, Layout.mem_placed_ofReadings.2 hp, hline, rfl, hoperand, hoffset.trans hextent,
    fun _ => offset?_eq_some_iff hrs hnodup, ?_,
    fun _ => Placed.instruction_of_outOfReach hb hoperand hlabel,
    Placed.instruction_of_undefined hb hoperand hlabel,
    fun _ => assemble_of_instruction_error hrs hnodup hp, ?_⟩
  · intro target htarget hreach
    refine ⟨Placed.instruction_of_inReach hb hoperand hlabel htarget hreach, ?_⟩
    rw [hoffset] at hreach ⊢
    exact numberForLabel hrs hnodup ht hl hs hb hlabel htarget hreach
  · intro code hcode
    obtain ⟨i, hi, hholds⟩ := holdsAt_of_placed hcode hlayout (Layout.mem_placed_ofReadings.2 hp)
    cases htarget : (Layout.ofReadings rs).offset? label with
    | none => cases hi.symm.trans (Placed.instruction_of_undefined hb hoperand hlabel htarget)
    | some target =>
      by_cases hreach : InReach (target - p.offset)
      · obtain ⟨j, hj, hbytes⟩ := Placed.instruction_of_inReach hb hoperand hlabel htarget hreach
        cases hi.symm.trans hj
        exact ⟨target, rfl, hreach, hbytes ▸ hholds⟩
      · cases hi.symm.trans (Placed.instruction_of_outOfReach hb hoperand hlabel htarget hreach)

/-- A branch forth over a comment and a line, with a listing number that is not its offset. -/
theorem labels_resolved_forth_listed :
    assemble "7: goto end // over\nnop\nend: halt" = .ok #[0xa7, 0x00, 0x04, 0x00, 0xff] ∧
      assemble (withLine "7: goto end // over\nnop\nend: halt" 1 "7: goto 11 // over".toList) =
        assemble "7: goto end // over\nnop\nend: halt" := by
  have hlayout : Layout.ofSource "7: goto end // over\nnop\nend: halt".toList =
      .ok { labels := [("end", 4)]
            placed := #[
              { line := 1, offset := 0, opcode := .goto, operand := some "end",
                listedAt := some 7 },
              { line := 2, offset := 3, opcode := .nop, operand := none, listedAt := none },
              { line := 3, offset := 4, opcode := .halt, operand := none, listedAt := none }]
            size := 5 } := by decide +kernel
  obtain ⟨p, -, -, -, -, hoffset, -, hreach, -⟩ :=
    @labels_resolved _ _ hlayout 0 "7: goto end // over".toList
      ⟨some "7", none, some ⟨"goto", some "end"⟩⟩ (by decide +kernel) (by decide +kernel) .goto
      "end" (by decide +kernel) rfl (by decide +kernel)
  have hzero : p.offset = 0 := hoffset.trans (by decide +kernel)
  rw [hzero] at hreach
  obtain ⟨-, hnumber⟩ := hreach 4 (by decide +kernel) (by decide)
  have hat : OperandAt "7: goto end // over".toList "7: goto ".toList "end" " // over".toList :=
    ⟨by decide +kernel, by decide +kernel, by decide +kernel⟩
  obtain ⟨n, hn, hsame⟩ := hnumber.listed _ _ "7" hat rfl
  obtain rfl : n = 7 := Option.some.inj (hn.symm.trans (by decide +kernel))
  exact ⟨by decide +kernel, hsame (by decide)⟩

end StackMachine.Assembly
