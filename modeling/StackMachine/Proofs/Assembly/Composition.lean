import Mathlib.Data.List.Nodup
import StackMachine.Proofs.Assembly.Decoding
import StackMachine.Proofs.Text

/-!
# Sources one behind the other

Two sources with a newline between them assemble to the codes of both, one behind the other, unless
they have a label in common (`assemble_newline_append`). For every line of the second source is laid
out further down by the same number of lines and bytes, its labels as well as its branches
(`placements_moved`), and what an operand is read as depends on the distance between the two
(`Placed.instruction_moved`). The labels of the first source keep their offsets.
-/

namespace StackMachine.Assembly

open Text

/-! ### Labels -/

namespace Layout

section

variable {rs ss : List Reading} (hnodup : ((rs ++ ss).filterMap Reading.label).Nodup)
  {label : String} {target : Nat}

include hnodup

/-- A label of the lines in front keeps its offset. -/
theorem offset?_append_left (h : (ofReadings rs).offset? label = some target) :
    (ofReadings (rs ++ ss)).offset? label = some target := by
  obtain ⟨k, r, hr, hlabel, rfl⟩ := offset?_ofReadings h
  have hk := (List.getElem?_eq_some_iff.1 hr).1
  refine (offset?_ofReadings_iff hnodup).2 ⟨k, r, ?_, hlabel, ?_⟩
  · rw [List.getElem?_append_left hk, hr]
  · rw [List.take_append_of_le_length (Nat.le_of_lt hk)]

/-- A label of the lines behind moves by the bytes of those in front. -/
theorem offset?_append_right (h : (ofReadings ss).offset? label = some target) :
    (ofReadings (rs ++ ss)).offset? label = some (target + extent rs) := by
  obtain ⟨k, r, hr, hlabel, rfl⟩ := offset?_ofReadings h
  refine (offset?_ofReadings_iff hnodup).2 ⟨rs.length + k, r, ?_, hlabel, ?_⟩
  · rw [List.getElem?_append_right (Nat.le_add_right _ _), Nat.add_sub_cancel_left, hr]
  · rw [List.take_length_add_append, extent_append, Nat.add_comm]

end

end Layout

/-! ### Instructions further down -/

/-- The instruction with more lines and bytes in front of it. -/
def Placed.moved (lines bytes : Nat) (p : Placed) : Placed :=
  { p with line := p.line + lines, offset := p.offset + bytes }

@[simp] theorem Placed.moved_zero (p : Placed) : p.moved 0 0 = p := rfl

theorem placements_moved (lines bytes number offset : Nat) (rs : List Reading) :
    placements (number + lines) (offset + bytes) rs =
      (placements number offset rs).map (Placed.moved lines bytes) := by
  induction rs generalizing number offset with
  | nil => rfl
  | cons r rs ih =>
    have hrest := ih (number + 1) (offset + r.size)
    rw [Nat.add_right_comm number, Nat.add_right_comm offset] at hrest
    show (r.placement? _ _).toList ++ placements _ _ rs = _
    rw [hrest]
    obtain ⟨label, _ | e⟩ := r <;> rfl

namespace Placed

variable {p : Placed} {layout layout' : Layout} {bytes : Nat}

/-- The distance to a label stays the same when the label moves along. -/
theorem distance_moved {label : String} {d : Int16} (lines : Nat)
    (hlayout : ∀ target, layout.offset? label = some target →
      layout'.offset? label = some (target + bytes))
    (h : p.distance layout label = .ok d) :
    (p.moved lines bytes).distance layout' label = .ok d := by
  obtain ⟨target, ht, hreach, rfl⟩ := distance_eq_ok_iff.1 h
  have hsame : ((target + bytes : Nat) : Int) - (p.moved lines bytes).offset =
      target - p.offset := by
    simp only [moved]
    omega
  refine distance_eq_ok_iff.2 ⟨target + bytes, hlayout target ht, ?_, ?_⟩ <;> rw [hsame]
  exact hreach

/-- What is read as an instruction is read as the same one further down, if the labels move
along. -/
theorem instruction_moved {i : Instruction} (lines : Nat)
    (hlayout : ∀ label target, layout.offset? label = some target →
      layout'.offset? label = some (target + bytes))
    (h : p.instruction layout = .ok i) : (p.moved lines bytes).instruction layout' = .ok i := by
  obtain ⟨v, hv, rfl⟩ := instruction_eq_ok_iff.1 h
  refine instruction_eq_ok_iff.2 ⟨v, ?_, rfl⟩
  change (p.moved lines bytes).operandValue layout' p.opcode.immediate = .ok v
  -- Of the layout only the labels count, and only for a branch.
  clear h
  generalize p.opcode.immediate = immediate at v hv ⊢
  cases immediate with
  | none | i8 | i16 | localIndex => exact hv
  | branchOffset =>
    obtain ⟨operand, ho, hv⟩ := bind_eq_ok_iff.1 hv
    refine bind_eq_ok_iff.2 ⟨operand, ho, ?_⟩
    by_cases hs : startsLabel operand = true
    · rw [if_pos hs] at hv ⊢
      exact distance_moved lines (hlayout operand) hv
    · rw [if_neg hs] at hv ⊢
      exact hv

end Placed

/-- The instructions of lines one behind the other are those of both. -/
theorem forall₂_instruction_append {rs ss : List Reading} {is js : List Instruction}
    (hnodup : ((rs ++ ss).filterMap Reading.label).Nodup)
    (his : List.Forall₂ (fun p i => p.instruction (.ofReadings rs) = .ok i) (placements 1 0 rs) is)
    (hjs : List.Forall₂ (fun p i => p.instruction (.ofReadings ss) = .ok i)
      (placements 1 0 ss) js) :
    List.Forall₂ (fun p i => p.instruction (.ofReadings (rs ++ ss)) = .ok i)
      (placements 1 0 (rs ++ ss)) (is ++ js) := by
  have hsplit : placements 1 0 (rs ++ ss) =
      placements 1 0 rs ++ (placements 1 0 ss).map (Placed.moved rs.length (extent rs)) := by
    rw [← placements_moved]
    exact collect_append Reading.placement? 1 0 rs ss
  rw [hsplit]
  refine List.rel_append (his.imp ?_) (List.forall₂_map_left_iff.2 (hjs.imp ?_))
  · intro p i hi
    rw [← p.moved_zero]
    exact Placed.instruction_moved 0 (fun _ _ => Layout.offset?_append_left hnodup) hi
  · intro p i hi
    exact Placed.instruction_moved rs.length (fun _ _ => Layout.offset?_append_right hnodup) hi

/-! ### Two sources -/

theorem definedLabels_append (texts texts' : List (List Char)) :
    definedLabels (texts ++ texts') = definedLabels texts ++ definedLabels texts' :=
  List.filterMap_append

/-- **Assembling composes.** Two sources that assemble do so one behind the other, to their codes
one behind the other, exactly when no label is defined in both of them. -/
theorem assemble_newline_append {source source' : String} {code code' : Code}
    (h : assemble source = .ok code) (h' : assemble source' = .ok code') :
    assemble (source ++ "\n" ++ source') = .ok (code ++ code') ↔
      ∀ label ∈ definedLabels (lines source.toList),
        label ∉ definedLabels (lines source'.toList) := by
  obtain ⟨rs, is, hrs, hnodup, his, hcode⟩ := assemble_eq_ok_iff.1 h
  obtain ⟨ss, js, hss, hnodup', hjs, hcode'⟩ := assemble_eq_ok_iff.1 h'
  have hlines : lines (source ++ "\n" ++ source').toList =
      lines source.toList ++ lines source'.toList := by
    rw [← lines_append_newline_append]
    simp
  constructor
  · intro happend
    obtain ⟨qs, -, hqs, hboth, -⟩ := assemble_eq_ok_iff.1 happend
    rw [filterMap_label_eq hqs, hlines, definedLabels_append] at hboth
    exact List.disjoint_of_nodup_append hboth
  · intro hdisjoint
    have hreads : List.Forall₂ (fun text r => Reads (stripComment text) r)
        (lines (source ++ "\n" ++ source').toList) (rs ++ ss) := by
      rw [hlines]
      exact List.rel_append hrs hss
    have hboth : ((rs ++ ss).filterMap Reading.label).Nodup := by
      rw [List.filterMap_append]
      refine hnodup.append hnodup' ?_
      rw [filterMap_label_eq hrs, filterMap_label_eq hss]
      exact hdisjoint
    refine assemble_eq_ok_iff.2
      ⟨rs ++ ss, is ++ js, hreads, hboth, forall₂_instruction_append hboth his hjs, ?_⟩
    obtain ⟨henc, rfl⟩ := Instruction.encodeAll_eq_ok_iff.1 hcode
    obtain ⟨henc', rfl⟩ := Instruction.encodeAll_eq_ok_iff.1 hcode'
    refine Instruction.encodeAll_eq_ok_iff.2 ⟨List.forall_mem_append.2 ⟨henc, henc'⟩, ?_⟩
    rw [List.flatMap_append, List.append_toArray]

/-- A loop in front of a listing with a branch back and a label of its own. -/
theorem assemble_newline_append_two_loops :
    assemble ("top: nop\ngoto top ; again" ++ "\n" ++ "0: bipush 5\n2: goto 0\nend: goto end") =
      .ok #[0x00, 0xa7, 0xff, 0xff, 0x10, 0x05, 0xa7, 0xff, 0xfe, 0xa7, 0x00, 0x00] := by
  have hloop : assemble "top: nop\ngoto top ; again" = .ok #[0x00, 0xa7, 0xff, 0xff] := by
    decide +kernel
  have hlisting : assemble "0: bipush 5\n2: goto 0\nend: goto end" =
      .ok #[0x10, 0x05, 0xa7, 0xff, 0xfe, 0xa7, 0x00, 0x00] := by
    decide +kernel
  exact (assemble_newline_append hloop hlisting).2 (by decide +kernel)

end StackMachine.Assembly
