import StackMachine.Machine.Executor
import StackMachine.Proofs.Assembly.Assemble
import StackMachine.Proofs.Machine.Boundaries

/-!
# Running what was assembled

If every branch of a source goes to a label, then its code runs line by line
(`run_of_labelled_source`): whatever the capacities, the program counter stands at the offset of an
instruction line or at the end, the instruction there is that of the line, a branch that is taken
goes on from the line of its label, and a run ends with a fault of an instruction, if with any.

The layout gives labels and instructions the offsets of their lines, and both passes agree on
them; so the branches go to boundaries, and a run stays on these.
-/

namespace StackMachine.Assembly

open Text Machine

/-- The operand of every branch in a source begins like a label. -/
def LabelledSource (source : List Char) : Prop :=
  ∀ text ∈ lines source, ∀ line ∈ Line.parse? (stripComment text),
    ∀ statement ∈ line.statement, ∀ op ∈ Opcode.ofMnemonic? statement.mnemonic,
      op.immediate = .branchOffset →
        ∃ operand ∈ statement.operand, startsLabel operand = true

instance (source : List Char) : Decidable (LabelledSource source) := by
  unfold LabelledSource
  infer_instance

/-- A branch of such a source has a label. -/
theorem LabelledSource.label {source : List Char} (h : LabelledSource source) {layout : Layout}
    (hc : layout.Covers source) {p : Placed} (hp : p ∈ layout.placed)
    (hb : p.opcode.immediate = .branchOffset) :
    ∃ label, p.operand = some label ∧ startsLabel label = true := by
  obtain ⟨line, ⟨k, text, -, ht, hl⟩, hs⟩ := hc.line_of_mem p hp
  exact h text (List.mem_of_getElem? ht) line hl _ hs p.opcode
    (Opcode.ofMnemonic?_eq_some_iff.2 rfl) hb

theorem immediate_of_branchOffset? {i : Instruction} {offset : Int16}
    (h : i.branchOffset? = some offset) : i.opcode.immediate = .branchOffset := by
  cases i <;> first | rfl | cases h

section

variable {source : String} {rs : List Reading} {is : List Instruction}
  (hrs : List.Forall₂ (fun text r => Reads (stripComment text) r) (lines source.toList) rs)
  (his : List.Forall₂ (fun p i => p.instruction (.ofReadings rs) = .ok i) (placements 1 0 rs) is)
  (hs : LabelledSource source.toList)

include his in
/-- Where a line is continued there is a boundary of the code. -/
theorem boundary_of_continuesAt {number : Nat} {pc : Int}
    (h : (Layout.ofReadings rs).ContinuesAt number pc) : Boundary is pc := by
  obtain ⟨hl, hsize⟩ := forall₂_laidOut his
  rcases h with ⟨p, hp, -, -, rfl⟩ | ⟨-, rfl⟩
  · obtain ⟨l, hl, ho, -⟩ := exists_mem_of_forall₂ hl (Layout.mem_placed_ofReadings.1 hp)
    exact .inr ⟨l, hl, congrArg _ ho⟩
  · exact .inl (by rw [Layout.size_ofReadings, hsize])

include his in
/-- The instruction of a line stands where it was laid out. -/
theorem instructionAt_of_placed {code : Code} (henc : Instruction.encodeAll is = .ok code)
    {p : Placed} (hp : p ∈ (Layout.ofReadings rs).placed) {i : Instruction}
    (hi : p.instruction (.ofReadings rs) = .ok i) : InstructionAt code p.offset i := by
  obtain ⟨l, hl, hstart, hli⟩ :=
    exists_mem_of_forall₂ (forall₂_laidOut his).1 (Layout.mem_placed_ofReadings.1 hp)
  cases hi.symm.trans hli
  obtain ⟨hall, rfl⟩ := Instruction.encodeAll_eq_ok_iff.1 henc
  rw [hstart]
  exact instructionAt_of_mem_laidOut hall (holdsAt_toArray _) hl

include hrs hs in
/-- The branch of a line goes on from the line that defines its label. -/
theorem continuesAt_of_branch {p : Placed} (hp : p ∈ (Layout.ofReadings rs).placed)
    {i : Instruction} (hi : p.instruction (.ofReadings rs) = .ok i)
    (hb : p.opcode.immediate = .branchOffset) :
    ∃ label number offset, p.operand = some label ∧ Defines source.toList number label ∧
      i.branchOffset? = some offset ∧
      (Layout.ofReadings rs).ContinuesAt number (p.offset + offset.toInt) := by
  obtain ⟨label, hl, hstart⟩ := hs.label (Layout.covers_ofReadings hrs) hp hb
  obtain ⟨target, offset, ht, ho, hoffset⟩ := Placed.branchOffset_of_label hi hb hl hstart
  obtain ⟨k, r, hr, hlabel, rfl⟩ := Layout.offset?_ofReadings ht
  obtain ⟨line, hline, hlabel', -⟩ := lineAt_of_getElem? hrs hr
  refine ⟨label, k + 1, offset, hl, ⟨line, hline, hlabel'.trans hlabel⟩, ho, ?_⟩
  have hk := (List.getElem?_eq_some_iff.1 hr).1
  have htarget : p.offset + offset.toInt = (extent (rs.take k) : Nat) := by omega
  rw [htarget]
  exact Layout.continuesAt_extent (Nat.le_of_lt hk)

include hrs his hs in
/-- All branches of a source with labels go to boundaries. -/
theorem branchesInside_of_labels : BranchesInside is := by
  intro l hl offset ho
  obtain ⟨p, hp, hstart, hi⟩ := exists_mem_of_forall₂ (forall₂_laidOut his).1.flip hl
  have hp := Layout.mem_placed_ofReadings.2 hp
  have hb : p.opcode.immediate = .branchOffset := by
    rw [← Placed.opcode_of_instruction hi]
    exact immediate_of_branchOffset? ho
  obtain ⟨-, number, offset', -, -, ho', hcont⟩ := continuesAt_of_branch hrs hs hp hi hb
  cases ho.symm.trans ho'
  rw [← hstart]
  exact boundary_of_continuesAt his hcont

end

/-- **A source with labels runs line by line.** Under any limits, a run of its code is always at
the offset of an instruction line or at the end of the code, and the instruction there is that of
the line. A branch that is taken goes on at the first instruction from the line of its label on, or
at the end of the code if there is none. So a run that ends completes, or an instruction of it
fails; no run meets a byte that is no opcode, a truncated operand or a place outside the code. -/
theorem run_of_labelled_source {source : String} {code : Code} (hc : assemble source = .ok code)
    (hs : LabelledSource source.toList) :
    ∃ layout, Layout.ofSource source.toList = .ok layout ∧ layout.Covers source.toList ∧
      layout.size = code.size ∧
      (∀ limits m, Reachable limits code m →
        m.pc = code.size ∨
          ∃ p ∈ layout.placed, ∃ i, m.pc = p.offset ∧ p.instruction layout = .ok i ∧
            InstructionAt code p.offset i ∧
            ∀ j flow after, m.turn code = .completed j flow after → j = i) ∧
      (∀ limits m, Reachable limits code m → ∀ p ∈ layout.placed, m.pc = p.offset →
        ∀ i, p.instruction layout = .ok i → Takes m i →
          ∃ label number after, p.operand = some label ∧ Defines source.toList number label ∧
            (∀ other, Defines source.toList other label → other = number) ∧
            m.turn code = .completed i .next after ∧ layout.ContinuesAt number after.pc) ∧
      ∀ (x : Executor) turns e, x.execute? turns code = some e →
        (∃ completion, e.outcome = .completed completion) ∨
          ∃ fault, e.outcome = .faulted fault ∧ fault.kind.OfExecution := by
  obtain ⟨rs, is, hrs, hnodup, his, henc⟩ := assemble_eq_ok_iff.1 hc
  obtain ⟨hlaid, hsize⟩ := forall₂_laidOut his
  have hinside : BranchesInside is := branchesInside_of_labels hrs his hs
  refine ⟨.ofReadings rs, Layout.ofSource_eq_ok_iff.2 ⟨rs, hrs, hnodup, rfl⟩,
    Layout.covers_ofReadings hrs, ?_, ?_, ?_, ?_⟩
  · rw [Layout.size_ofReadings, ← hsize, (Instruction.encodeAll_eq_ok_iff.1 henc).2,
      List.size_toArray, length_flatMap_bytes]
  · intro limits m hm
    rcases Boundary.cases henc (hm.boundary henc hinside) with ⟨hend, -⟩ | ⟨l, hl, hpc, hi⟩
    · exact .inl hend
    obtain ⟨p, hp, hstart, hpi⟩ := exists_mem_of_forall₂ hlaid.flip hl
    rw [← hstart] at hpc hi
    refine .inr ⟨p, Layout.mem_placed_ofReadings.2 hp, _, hpc, hpi, hi, ?_⟩
    intro j flow after ht
    obtain ⟨pos, hpos, hj, -⟩ := turn_eq_completed_iff.1 ht
    obtain rfl : pos = p.offset := Int.ofNat.inj (hpos.symm.trans hpc)
    exact hj.unique hi
  · intro limits m hm p hp hpc i hi ht
    have hb : p.opcode.immediate = .branchOffset := by
      rw [← Placed.opcode_of_instruction hi]
      cases i <;> first | rfl | cases ht
    obtain ⟨label, number, offset, hl, hdef, ho, hcont⟩ := continuesAt_of_branch hrs hs hp hi hb
    obtain ⟨after, hturn, hafter⟩ :=
      turn_of_takes hpc (instructionAt_of_placed his henc hp hi) ho ht
    exact ⟨label, number, after, hl, hdef, fun _ hother => hother.unique hrs hnodup hdef, hturn,
      hafter ▸ hcont⟩
  · intro x turns e he
    obtain ⟨ending, hrun, rfl⟩ := Option.map_eq_some_iff.1 he
    obtain ⟨last, hsteps, hends⟩ := steps_of_run hrun
    have hlast : Reachable ⟨x.stack.capacity, x.limits.localsCapacity⟩ code last := hsteps
    exact hends.outcome_cases henc (hlast.boundary henc hinside)

/-- A branch forth and a branch back: no run of the two leaves the three instructions. -/
theorem run_of_labelled_source_forth_and_back :
    assemble "goto end\nloop: halt\nend: goto loop" =
        .ok #[0xa7, 0x00, 0x04, 0xff, 0xa7, 0xff, 0xff] ∧
      ∃ layout, Layout.ofSource "goto end\nloop: halt\nend: goto loop".toList = .ok layout ∧
        ∀ limits m, Reachable limits #[0xa7, 0x00, 0x04, 0xff, 0xa7, 0xff, 0xff] m →
          m.pc = 7 ∨ ∃ p ∈ layout.placed, m.pc = p.offset := by
  have hc : assemble "goto end\nloop: halt\nend: goto loop" =
      .ok #[0xa7, 0x00, 0x04, 0xff, 0xa7, 0xff, 0xff] := by decide +kernel
  obtain ⟨layout, hl, -, -, hrun, -⟩ := run_of_labelled_source hc (by decide +kernel)
  refine ⟨hc, layout, hl, ?_⟩
  intro limits m hm
  rcases hrun limits m hm with hend | ⟨p, hp, i, hpc, -⟩
  · exact .inl hend
  · exact .inr ⟨p, hp, hpc⟩

end StackMachine.Assembly
