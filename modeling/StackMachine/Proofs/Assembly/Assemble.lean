import StackMachine.Proofs.Assembly.Layout
import StackMachine.Proofs.Instruction.Codec

/-!
# What assembling writes

A source assembles when its lines can be laid out and each operand can be read for the layout, and
its code is then the encoding of the instructions (`assemble_eq_ok_iff`). An instruction takes as
many bytes in that code as it was given in the layout, so it stands at the offset that it was laid
out at (`forall₂_laidOut`), and a branch to a label goes to the offset of the label
(`branchOffset_of_label`).
-/

namespace StackMachine.Assembly

open Text

/-! ### The second pass -/

namespace Placed

theorem instruction_eq_ok_iff {p : Placed} {layout : Layout} {i : Instruction} :
    p.instruction layout = .ok i ↔
      ∃ v, p.operandValue layout p.opcode.immediate = .ok v ∧ i = .ofOpcode p.opcode v := by
  unfold instruction
  cases p.operandValue layout p.opcode.immediate <;> simp [eq_comm]

theorem instruction_of_operandValue_error {p : Placed} {layout : Layout} {problem : Problem}
    (h : p.operandValue layout p.opcode.immediate = .error problem) :
    p.instruction layout = .error { line := p.line, problem } := by
  simp only [instruction, h]

theorem opcode_of_instruction {p : Placed} {layout : Layout} {i : Instruction}
    (h : p.instruction layout = .ok i) : i.opcode = p.opcode := by
  obtain ⟨v, -, rfl⟩ := instruction_eq_ok_iff.1 h
  exact Instruction.opcode_ofOpcode _ _

theorem encodable_of_instruction {p : Placed} {layout : Layout} {i : Instruction}
    (h : p.instruction layout = .ok i) : i.Encodable := by
  obtain ⟨v, -, rfl⟩ := instruction_eq_ok_iff.1 h
  exact Instruction.encodable_ofOpcode _ _

theorem distance_eq_ok_iff {p : Placed} {layout : Layout} {label : String} {d : Int16} :
    p.distance layout label = .ok d ↔
      ∃ target, layout.offset? label = some target ∧
        (-32768 ≤ (target : Int) - p.offset ∧ (target : Int) - p.offset < 32768) ∧
        d = Int16.ofInt (target - p.offset) := by
  unfold distance
  cases layout.offset? label with
  | none => simp
  | some target =>
    constructor
    · intro hd
      by_cases h : -32768 ≤ (target : Int) - p.offset ∧ (target : Int) - p.offset < 32768
      · exact ⟨target, rfl, h, (Except.ok.inj ((if_pos h).symm.trans hd)).symm⟩
      · cases (if_neg h).symm.trans hd
    · rintro ⟨_, ⟨rfl⟩, h, rfl⟩
      exact if_pos h

/-- The operand of a branch that begins like a label is one. -/
theorem operandValue_of_label {p : Placed} (layout : Layout) {label : String}
    (hl : p.operand = some label) (hs : startsLabel label = true) :
    p.operandValue layout .branchOffset = p.distance layout label := by
  simp [operandValue, operandText, hl, hs, bind, Except.bind]

/-- A branch to a label goes to the offset of the label. -/
theorem branchOffset_of_label {p : Placed} {layout : Layout} {i : Instruction} {label : String}
    (hi : p.instruction layout = .ok i) (hp : p.opcode.immediate = .branchOffset)
    (hl : p.operand = some label) (hs : startsLabel label = true) :
    ∃ target offset, layout.offset? label = some target ∧ i.branchOffset? = some offset ∧
      offset.toInt = (target : Int) - p.offset := by
  have hvalue := operandValue_of_label layout hl hs
  obtain ⟨v, hv, rfl⟩ := instruction_eq_ok_iff.1 hi
  obtain ⟨line, pos, op, operand, listedAt⟩ := p
  cases op <;> cases hp
  all_goals
    obtain ⟨target, ht, hr, rfl⟩ := distance_eq_ok_iff.1 (hvalue.symm.trans hv)
    exact ⟨target, _, ht, rfl, Int16.toInt_ofInt_of_le hr.1 hr.2⟩

end Placed

/-- The instructions of the second pass, one behind the other, stand at the offsets of the
first. -/
theorem forall₂_laidOut {layout : Layout} {number offset : Nat} {rs : List Reading}
    {is : List Instruction}
    (h : List.Forall₂ (fun p i => p.instruction layout = .ok i) (placements number offset rs) is) :
    List.Forall₂ (fun (p : Placed) l => p.offset = l.start ∧
      p.instruction layout = .ok l.instruction) (placements number offset rs) (laidOut offset is) ∧
      totalSize is = extent rs := by
  -- Only a line with an instruction takes an instruction of the second pass and moves the offset.
  induction rs generalizing number offset is with
  | nil =>
    cases h
    exact ⟨.nil, rfl⟩
  | cons r rs ih =>
    obtain ⟨label, _ | e⟩ := r
    · obtain ⟨hl, hs⟩ := ih h
      exact ⟨hl, hs.trans (Nat.zero_add _).symm⟩
    · cases h with
      | @cons _ i _ is hi h =>
        have hsize : i.size = e.opcode.size :=
          congrArg Opcode.size (Placed.opcode_of_instruction hi)
        obtain ⟨hl, hs⟩ := ih h
        refine ⟨.cons ⟨rfl, hi⟩ ?_, ?_⟩
        · rw [hsize]
          exact hl
        · rw [totalSize_cons, extent_cons, hs, hsize]
          rfl

/-- **When there is a code**: each line can be read, no label stands in two lines, and each
operand can be read where its instruction was laid out. The code is the encoding of the
instructions. -/
theorem assemble_eq_ok_iff {source : String} {code : Code} :
    assemble source = .ok code ↔
      ∃ rs is, List.Forall₂ (fun text r => Reads (stripComment text) r) (lines source.toList) rs ∧
        (rs.filterMap Reading.label).Nodup ∧
        List.Forall₂ (fun p i => p.instruction (.ofReadings rs) = .ok i) (placements 1 0 rs) is ∧
        Instruction.encodeAll is = .ok code := by
  have hassemble : assemble source = .ok code ↔
      ∃ is, instructions source = .ok is ∧ code = (is.flatMap Instruction.bytes).toArray := by
    unfold assemble
    cases instructions source <;> simp [Except.map, eq_comm]
  rw [hassemble]
  unfold instructions
  simp only [bind_eq_ok_iff, mapM_eq_ok_iff, Layout.ofSource_eq_ok_iff,
    Instruction.encodeAll_eq_ok_iff]
  constructor
  · rintro ⟨is, ⟨_, ⟨rs, hrs, hnodup, rfl⟩, his⟩, rfl⟩
    rw [Layout.toList_placed_ofReadings] at his
    refine ⟨rs, is, hrs, hnodup, his, ?_, rfl⟩
    intro i hi
    obtain ⟨p, -, hp⟩ := exists_mem_of_forall₂ his.flip hi
    exact Placed.encodable_of_instruction hp
  · rintro ⟨rs, is, hrs, hnodup, his, -, rfl⟩
    rw [← Layout.toList_placed_ofReadings] at his
    exact ⟨is, ⟨_, ⟨rs, hrs, hnodup, rfl⟩, his⟩, rfl⟩

end StackMachine.Assembly
