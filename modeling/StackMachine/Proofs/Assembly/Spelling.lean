import StackMachine.Proofs.Assembly.Assemble
import StackMachine.Proofs.Assembly.Line

/-!
# Writing instructions as lines

An instruction can be written as a line in two ways. The plain line is its text, in which a branch
shows its distance; the listed line has its offset in front, and then a branch shows its target.
Whichever way each line is written, the lines assemble to the encoding of the instructions
(`assemble_spelled`).

The two ways differ in the number that a branch shows, and the assembler takes off exactly what
the listed line has added: that is `operandValue_of_text`, from a base of zero or of the offset.
-/

namespace StackMachine

open Text

/-- The text of an operand, where a branch counts from a base instead of its own opcode. -/
def Immediate.textFrom (base : Int) : (i : Immediate) → i.Operand → Option String
  | .branchOffset, v => some (toString (base + v.toInt))
  | i, v => i.text? v

@[simp] theorem Immediate.textFrom_zero {i : Immediate} (v : i.Operand) :
    i.textFrom 0 v = i.text? v := by
  cases i <;> simp [textFrom, text?]

/-- The text of an operand, if there is one, is that of a number. -/
theorem Immediate.textFrom_cases (base : Int) {i : Immediate} (v : i.Operand) :
    (i = .none ∧ i.textFrom base v = Option.none) ∨
      ∃ n : Int, i.textFrom base v = some (toString n) := by
  cases i with
  | none => exact .inl ⟨rfl, rfl⟩
  | i8 | i16 | branchOffset => exact .inr ⟨_, rfl⟩
  | localIndex => exact .inr ⟨v.toNat, rfl⟩

namespace Assembly

/-! ### The two ways -/

/-- A way of writing an instruction as a line. -/
inductive Spelling where
  /-- The text of the instruction; a branch shows its distance. -/
  | plain
  /-- The offset and a colon in front; a branch shows its target. -/
  | listed
  deriving Repr, DecidableEq

namespace Spelling

/-- The line of an instruction that stands at an offset. -/
def line (offset : Nat) (i : Instruction) : Spelling → String
  | .plain => i.text
  | .listed =>
    toString offset ++ ": " ++
      match i.branchOffset? with
      | none => i.text
      | some distance => i.opcode.mnemonic ++ " " ++ toString (offset + distance.toInt)

/-- What stands in front of the statement. -/
def listing (offset : Nat) : Spelling → List Char
  | .plain => []
  | .listed => Nat.toDigits 10 offset ++ [':', ' ']

/-- The listing number. -/
def listedAt? (offset : Nat) : Spelling → Option Int
  | .plain => none
  | .listed => some offset

/-- The statement of the line. -/
def statement (offset : Nat) (i : Instruction) (s : Spelling) : Statement where
  mnemonic := i.opcode.mnemonic
  operand := i.opcode.immediate.textFrom ((s.listedAt? offset).getD 0) i.operand

/-- What the layout takes from the line. -/
def reading (offset : Nat) (i : Instruction) (s : Spelling) : Reading where
  label := none
  entry := some
    { opcode := i.opcode
      operand := (s.statement offset i).operand
      listedAt := s.listedAt? offset }

theorem toList_text (i : Instruction) :
    i.text.toList = i.opcode.mnemonic.toList ++
      (i.opcode.immediate.text? i.operand).elim [] (' ' :: ·.toList) := by
  unfold Instruction.text
  split <;> simp_all

/-- A line is its listing and its statement. -/
theorem toList_line (offset : Nat) (i : Instruction) (s : Spelling) :
    (s.line offset i).toList = s.listing offset ++ (s.statement offset i).text := by
  cases s with
  | plain => simp [line, listing, statement, listedAt?, Statement.text, toList_text]
  | listed =>
    have hdigits : (toString offset).toList = Nat.toDigits 10 offset := by simp
    cases hb : i.branchOffset? with
    | none =>
      have htext (base : Int) : i.opcode.immediate.textFrom base i.operand =
          i.opcode.immediate.text? i.operand := by
        cases i <;> first | rfl | cases hb
      simp [line, listing, statement, Statement.text, hb, toList_text, htext]
    | some distance =>
      have htext (base : Int) : i.opcode.immediate.textFrom base i.operand =
          some (toString (base + distance.toInt)) := by
        cases i <;> cases hb <;> rfl
      simp [line, listing, statement, listedAt?, Statement.text, hb, htext]

/-! ### One line -/

theorem isWord_mnemonic (op : Opcode) :
    isWord isMnemonicStart isMnemonicChar op.mnemonic.toList = true := by
  have key : ∀ op ∈ Opcode.all,
      isWord isMnemonicStart isMnemonicChar op.mnemonic.toList = true := by decide +kernel
  exact key op (Opcode.mem_all op)

/-- The operand of a line, if there is one, is a number. -/
theorem operand_statement (offset : Nat) (i : Instruction) (s : Spelling) :
    (i.opcode.immediate = .none ∧ (s.statement offset i).operand = none) ∨
      ∃ n : Int, (s.statement offset i).operand = some (toString n) :=
  Immediate.textFrom_cases _ _

/-- The statement of a line can be read. -/
theorem plain_statement (offset : Nat) (i : Instruction) (s : Spelling) :
    (s.statement offset i).Plain where
  mnemonic := isWord_mnemonic _
  operand := by
    intro o ho
    rcases operand_statement offset i s with ⟨-, h⟩ | ⟨n, h⟩ <;> cases h.symm.trans ho
    refine ⟨(isOperand_toString n).1, (isOperand_toString n).2, ?_⟩
    exact fun c hc => (char_of_mem_number (List.mem_of_mem_head? hc)).2.2.1

/-- No comment begins in a line, and it does not end before its end. -/
theorem char_of_mem_line {offset : Nat} {i : Instruction} {s : Spelling} {c : Char}
    (h : c ∈ (s.line offset i).toList) : c ≠ '\n' ∧ c ≠ ';' ∧ c ≠ '#' ∧ c ≠ '/' := by
  have hc : isMnemonicChar c = true ∨ c = ' ' ∨ c = ':' ∨ c = '-' := by
    rw [toList_line] at h
    rcases List.mem_append.1 h with h | h
    · cases s with
      | plain => cases h
      | listed =>
        rcases List.mem_append.1 h with h | h
        · have hdigit := Nat.isDigit_of_mem_toDigits (by decide) (by decide) h
          exact .inl (isMnemonicChar_of_isDigit hdigit)
        · simp only [List.mem_cons, List.not_mem_nil, or_false] at h
          tauto
    · rcases List.mem_append.1 h with h | h
      · exact .inl ((plain_statement offset i s).forall_mem c h)
      · rcases operand_statement offset i s with ⟨-, ho⟩ | ⟨n, ho⟩
        · rw [ho] at h
          cases h
        · rw [ho] at h
          rcases List.mem_cons.1 h with rfl | h
          · exact .inr (.inl rfl)
          · rcases char_of_mem_toString_int h with h | rfl
            · exact .inl (isMnemonicChar_of_isDigit h)
            · exact .inr (.inr (.inr rfl))
  refine ⟨?_, ?_, ?_, ?_⟩ <;> (rintro rfl; revert hc; decide)

/-- A line is read as its instruction. -/
theorem reads_line {offset : Nat} (ho : offset < 2 ^ 63) (i : Instruction) (s : Spelling) :
    Reads (stripComment (s.line offset i).toList) (s.reading offset i) := by
  rw [stripComment_of_forall fun c hc => (char_of_mem_line hc).2, toList_line]
  have hplain := plain_statement offset i s
  cases s with
  | plain => exact .entry hplain.parse?_text rfl rfl rfl
  | listed =>
    have hlisting : listing offset .listed ++ (statement offset i .listed).text =
        Nat.toDigits 10 offset ++ ':' :: ' ' :: (statement offset i .listed).text := by
      simp [listing]
    rw [hlisting]
    refine .entry (hplain.parse?_listed offset) rfl rfl ?_
    simp [Layout.listingNumber, Numeral.signed?_toDigits ho]
    rfl

end Spelling

/-! ### The operand of a line -/

namespace Placed

variable {p : Placed}

theorem number_toString {n : Int} (hn : n.natAbs < 2 ^ 63) : p.number (toString n) = .ok n := by
  simp only [number, Numeral.parse_toString hn]

theorem int8_toInt (v : Int8) : p.int8 v.toInt = .ok v := by
  rw [int8, if_pos ⟨v.le_toInt, v.toInt_lt⟩, Int8.ofInt_toInt]

theorem int16_toInt (v : Int16) : p.int16 v.toInt = .ok v := by
  rw [int16, if_pos ⟨v.le_toInt, v.toInt_lt⟩, Int16.ofInt_toInt]

theorem index_toNat (v : UInt8) : p.index v.toNat = .ok v := by
  have := v.toNat_lt
  rw [index, if_pos (by omega), Int.toNat_natCast, UInt8.ofNat_toNat]

theorem startsLabel_toString (n : Int) : startsLabel (toString n) = false := by
  unfold startsLabel
  cases hhead : (toString n).toList.head? with
  | none => rfl
  | some c =>
    show isLabelStart c = false
    rcases char_of_mem_toString_int (List.mem_of_mem_head? hhead) with h | rfl
    · exact isLabelStart_of_isDigit h
    · decide

theorem operandText_of_some {o : String} (hp : p.operand = some o) : p.operandText = .ok o := by
  simp only [operandText, hp]

/-- The number of a branch is its target, and the distance is what remains of it when the listing
number, if any, is taken off. -/
theorem operandValue_of_target {layout : Layout} {v : Int16}
    (hp : p.operand = some (toString (p.listedAt.getD 0 + v.toInt)))
    (hfits : (p.listedAt.getD 0 + v.toInt).natAbs < 2 ^ 63) :
    p.operandValue layout .branchOffset = .ok v := by
  refine bind_eq_ok_iff.2 ⟨_, operandText_of_some hp, ?_⟩
  rw [startsLabel_toString, if_neg Bool.false_ne_true]
  refine bind_eq_ok_iff.2 ⟨_, number_toString hfits, ?_⟩
  have := v.le_toInt
  have := v.toInt_lt
  have hback : p.lessListing (p.listedAt.getD 0 + v.toInt) = .ok v.toInt := by
    rw [lessListing, add_sub_cancel_left, if_pos (Numeral.fits_of_natAbs_lt (by omega))]
  exact bind_eq_ok_iff.2 ⟨_, hback, int16_toInt v⟩

/-- An operand is read as it is written. -/
theorem operandValue_of_text {layout : Layout} {imm : Immediate} (v : imm.Operand)
    (hp : p.operand = imm.textFrom (p.listedAt.getD 0) v)
    (hbase : 0 ≤ p.listedAt.getD 0 ∧ p.listedAt.getD 0 < 2 ^ 62) :
    p.operandValue layout imm = .ok v := by
  cases imm with
  | none => simp only [operandValue, hp, Immediate.textFrom, Immediate.text?]
  | i8 =>
    have := Int8.le_toInt v
    have := Int8.toInt_lt v
    exact bind_eq_ok_iff.2 ⟨_, operandText_of_some hp,
      bind_eq_ok_iff.2 ⟨_, number_toString (by omega), int8_toInt v⟩⟩
  | i16 =>
    have := Int16.le_toInt v
    have := Int16.toInt_lt v
    exact bind_eq_ok_iff.2 ⟨_, operandText_of_some hp,
      bind_eq_ok_iff.2 ⟨_, number_toString (by omega), int16_toInt v⟩⟩
  | localIndex =>
    have := UInt8.toNat_lt v
    have hp : p.operand = some (toString (v.toNat : Int)) := hp
    exact bind_eq_ok_iff.2 ⟨_, operandText_of_some hp,
      bind_eq_ok_iff.2 ⟨_, number_toString (by omega), index_toNat v⟩⟩
  | branchOffset =>
    have := Int16.le_toInt v
    have := Int16.toInt_lt v
    exact operandValue_of_target hp (by omega)

end Placed

/-! ### All lines -/

namespace Spelling

theorem listedAt?_bounds {offset : Nat} (ho : offset < 2 ^ 62) (s : Spelling) :
    0 ≤ (s.listedAt? offset).getD 0 ∧ (s.listedAt? offset).getD 0 < 2 ^ 62 := by
  cases s with
  | plain =>
    simp only [listedAt?, Option.getD_none]
    decide
  | listed =>
    simp only [listedAt?, Option.getD_some]
    omega

/-- The instruction of a line is read where it is placed. -/
theorem instruction_of_placement? {number offset : Nat} {i : Instruction} {s : Spelling}
    {layout : Layout} {p : Placed} (hi : i.Encodable) (ho : offset < 2 ^ 62)
    (hp : (s.reading offset i).placement? number offset = some p) :
    p.instruction layout = .ok i := by
  cases hp
  refine Placed.instruction_eq_ok_iff.2 ⟨i.operand, ?_, (Instruction.ofOpcode_operand hi).symm⟩
  exact Placed.operandValue_of_text i.operand rfl (listedAt?_bounds ho s)

/-- A line has at least twice as many characters as its instruction has bytes. -/
theorem size_le_length_line (offset : Nat) (i : Instruction) (s : Spelling) :
    2 * i.size ≤ (s.line offset i).toList.length := by
  have key : ∀ op ∈ Opcode.all, 2 * op.size ≤ op.mnemonic.toList.length +
      if op.immediate = .none then 0 else 2 := by decide +kernel
  have hop := key i.opcode (Opcode.mem_all _)
  rw [toList_line, List.length_append]
  refine Nat.le_trans ?_ (Nat.le_add_left _ _)
  rw [Statement.text, List.length_append]
  refine Nat.le_trans hop (Nat.add_le_add_left ?_ _)
  rcases operand_statement offset i s with ⟨himm, -⟩ | ⟨n, ho⟩
  · rw [if_pos himm]
    exact Nat.zero_le _
  · have := List.length_pos_iff.2 (toList_toString_int_ne_nil n)
    rw [ho, Option.elim_some, List.length_cons]
    split <;> omega

end Spelling

/-- The lines of instructions that stand one behind the other from an offset on. -/
def spelledLines : (offset : Nat) → List (Instruction × Spelling) → List String
  | _, [] => []
  | offset, (i, s) :: ls => s.line offset i :: spelledLines (offset + i.size) ls

/-- The source with the lines of instructions. -/
def spelled (ls : List (Instruction × Spelling)) : String := "\n".intercalate (spelledLines 0 ls)

/-- What the layout takes from the lines. -/
def readings : (offset : Nat) → List (Instruction × Spelling) → List Reading
  | _, [] => []
  | offset, (i, s) :: ls => s.reading offset i :: readings (offset + i.size) ls

theorem forall₂_reads {offset : Nat} {ls : List (Instruction × Spelling)}
    (h : offset + totalSize (ls.map Prod.fst) < 2 ^ 62) :
    List.Forall₂ (fun text r => Reads (stripComment text) r)
      ((spelledLines offset ls).map String.toList) (readings offset ls) := by
  induction ls generalizing offset with
  | nil => exact .nil
  | cons l ls ih =>
    obtain ⟨i, s⟩ := l
    rw [List.map_cons, totalSize_cons, ← Nat.add_assoc] at h
    exact .cons (Spelling.reads_line (by omega) i s) (ih h)

theorem forall₂_instruction {layout : Layout} {number offset : Nat}
    {ls : List (Instruction × Spelling)} (hi : ∀ l ∈ ls, l.1.Encodable)
    (h : offset + totalSize (ls.map Prod.fst) < 2 ^ 62) :
    List.Forall₂ (fun p i => p.instruction layout = .ok i)
      (placements number offset (readings offset ls)) (ls.map Prod.fst) := by
  induction ls generalizing number offset with
  | nil => exact .nil
  | cons l ls ih =>
    obtain ⟨i, s⟩ := l
    rw [List.map_cons, totalSize_cons, ← Nat.add_assoc] at h
    exact .cons (Spelling.instruction_of_placement? (hi _ (.head _)) (by omega) rfl)
      (ih (fun l hl => hi l (.tail _ hl)) h)

theorem filterMap_label_readings (offset : Nat) (ls : List (Instruction × Spelling)) :
    (readings offset ls).filterMap Reading.label = [] := by
  induction ls generalizing offset with
  | nil => rfl
  | cons l ls ih => exact ih _

theorem toList_spelled (ls : List (Instruction × Spelling)) :
    (spelled ls).toList = unlines ((spelledLines 0 ls).map String.toList) := by
  rw [spelled, String.toList_intercalate]
  rfl

/-- A source has at least twice as many characters as its instructions have bytes. -/
theorem totalSize_le_length_spelled (ls : List (Instruction × Spelling)) :
    2 * totalSize (ls.map Prod.fst) ≤ (spelled ls).length := by
  have hlines (offset : Nat) : 2 * totalSize (ls.map Prod.fst) ≤
      (((spelledLines offset ls).map String.toList).map List.length).sum := by
    induction ls generalizing offset with
    | nil => exact Nat.le_refl 0
    | cons l ls ih =>
      obtain ⟨i, s⟩ := l
      have := ih (offset + i.size)
      have := Spelling.size_le_length_line offset i s
      simp only [spelledLines, List.map_cons, totalSize_cons, List.sum_cons]
      omega
  rw [← String.length_toList, toList_spelled]
  exact Nat.le_trans (hlines 0) (sum_length_le_length_unlines _)

/-- The lines of a source are the lines that it was put together from. -/
theorem lines_spelled {ls : List (Instruction × Spelling)} (hne : ls ≠ []) :
    lines (spelled ls).toList = (spelledLines 0 ls).map String.toList := by
  have hnewline (offset : Nat) :
      ∀ line ∈ (spelledLines offset ls).map String.toList, '\n' ∉ line := by
    clear hne
    induction ls generalizing offset with
    | nil => exact List.forall_mem_nil _
    | cons l ls ih =>
      obtain ⟨i, s⟩ := l
      exact List.forall_mem_cons.2 ⟨fun h => (Spelling.char_of_mem_line h).1 rfl, ih _⟩
  rw [toList_spelled]
  refine lines_unlines (hnewline 0) ?_
  cases ls with
  | nil => exact absurd rfl hne
  | cons l ls => exact List.cons_ne_nil _ _

/-- Lines are assembled to the encoding of their instructions, if every offset is less than half of
what fits, which leaves room for the longest branch. -/
theorem assemble_spelled_of_lt {ls : List (Instruction × Spelling)} {code : Code}
    (hcode : Instruction.encodeAll (ls.map Prod.fst) = .ok code) (hne : ls ≠ [])
    (hsize : totalSize (ls.map Prod.fst) < 2 ^ 62) : assemble (spelled ls) = .ok code := by
  have hi := List.forall_mem_map.1 (Instruction.encodeAll_eq_ok_iff.1 hcode).1
  rw [← Nat.zero_add (totalSize _)] at hsize
  refine assemble_eq_ok_iff.2
    ⟨readings 0 ls, ls.map Prod.fst, ?_, ?_, forall₂_instruction hi hsize, hcode⟩
  · rw [lines_spelled hne]
    exact forall₂_reads hsize
  · rw [filterMap_label_readings]
    exact List.nodup_nil

/-- **Instructions are assembled from their lines**, whichever way each of them is written: the
code is the encoding of the instructions. A text in memory has fewer than `2 ^ 63` characters, so
every offset and every target that is written in it is a number of 64 bits. -/
theorem assemble_spelled {ls : List (Instruction × Spelling)} (hi : ∀ l ∈ ls, l.1.Encodable)
    (hlen : (spelled ls).length < 2 ^ 63) :
    ∃ code, Instruction.encodeAll (ls.map Prod.fst) = .ok code ∧
      assemble (spelled ls) = .ok code := by
  have henc : Instruction.encodeAll (ls.map Prod.fst) = .ok _ :=
    Instruction.encodeAll_eq_ok_iff.2 ⟨List.forall_mem_map.2 hi, rfl⟩
  refine ⟨_, henc, ?_⟩
  by_cases hne : ls = []
  · subst hne
    -- The source of no instruction still has one line, which is blank.
    have hblank : Line.parse? (stripComment []) =
      some { listedAt := none, label := none, statement := none } := rfl
    exact assemble_eq_ok_iff.2
      ⟨[_], [], .cons (.bare hblank rfl) .nil, List.nodup_nil, .nil, henc⟩
  · have := totalSize_le_length_spelled ls
    exact assemble_spelled_of_lt henc hne (by omega)

/-- A plain line and a listed branch to a target in front of the code. -/
theorem assemble_spelled_negative_target :
    spelled [(.sipush 300, .plain), (.goto (-5), .listed)] = "sipush 300\n3: goto -2" ∧
      ∃ code, Instruction.encodeAll [.sipush 300, .goto (-5)] = .ok code ∧
        assemble (spelled [(.sipush 300, .plain), (.goto (-5), .listed)]) = .ok code :=
  ⟨by decide +kernel,
    @assemble_spelled [(.sipush 300, .plain), (.goto (-5), .listed)] (by decide)
      (by decide +kernel)⟩

end Assembly

end StackMachine
