import StackMachine.Proofs.Assembly.Assemble
import StackMachine.Proofs.Assembly.Line

/-!
# The size of a code

A code has no more bytes than its source has characters (`size_le_length`): even the shortest
mnemonic is not shorter than its instruction.
-/

namespace StackMachine.Assembly

open Text

theorem length_stripComment_le (text : List Char) : (stripComment text).length ≤ text.length := by
  obtain ⟨comment, htext, -⟩ := exists_comment text
  have hlength := congrArg List.length htext
  rw [List.length_append] at hlength
  omega

/-- An instruction has no more bytes than its mnemonic has characters. -/
theorem size_le_length_mnemonic (op : Opcode) : op.size ≤ op.mnemonic.toList.length := by
  have key : ∀ op ∈ Opcode.all, op.size ≤ op.mnemonic.toList.length := by decide +kernel
  exact key op (Opcode.mem_all op)

theorem Reads.size_le_length {text : List Char} {r : Reading} (h : Reads text r) :
    r.size ≤ text.length := by
  obtain ⟨line, hl, -, hs⟩ := h.line
  obtain ⟨listing, front, statement, -, -, hstatement, rfl⟩ := lineText_of_parse? hl
  obtain ⟨label, _ | e⟩ := r
  · exact Nat.zero_le _
  · rw [hs] at hstatement
    cases hstatement with
    | some =>
      have : e.opcode.size ≤ e.statement.mnemonic.toList.length :=
        size_le_length_mnemonic e.opcode
      simp only [List.length_append]
      exact Nat.le_trans this (by omega)

theorem extent_le_length {texts : List (List Char)} {rs : List Reading}
    (h : List.Forall₂ (fun text r => Reads (stripComment text) r) texts rs) :
    extent rs ≤ (texts.map List.length).sum := by
  induction h with
  | nil => exact Nat.le_refl 0
  | @cons text r texts rs hr _ ih =>
    rw [extent_cons, List.map_cons, List.sum_cons]
    exact Nat.add_le_add (Nat.le_trans hr.size_le_length (length_stripComment_le text)) ih

/-- A code has no more bytes than its source has characters. -/
theorem size_le_length {source : String} {code : Code} (h : assemble source = .ok code) :
    code.size ≤ source.length := by
  obtain ⟨rs, is, hrs, -, his, hcode⟩ := assemble_eq_ok_iff.1 h
  obtain ⟨-, rfl⟩ := Instruction.encodeAll_eq_ok_iff.1 hcode
  calc (is.flatMap Instruction.bytes).length
    _ = totalSize is := length_flatMap_bytes is
    _ = extent rs := (forall₂_laidOut his).2
    _ ≤ ((lines source.toList).map List.length).sum := extent_le_length hrs
    _ ≤ (unlines (lines source.toList)).length := sum_length_le_length_unlines _
    _ = source.length := by rw [unlines_lines, String.length_toList]

end StackMachine.Assembly
