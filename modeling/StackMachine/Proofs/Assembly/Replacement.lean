import StackMachine.Proofs.Assembly.Assemble
import StackMachine.Proofs.Assembly.Line

/-!
# Replacing a line or its operand

A source stays the same source, as far as assembling goes, when a line of it is replaced by one
with the same label and with an instruction of the same size that has the same bytes
(`assemble_withLine`). The layout then holds the same labels at the same offsets, and nothing else
of it is looked at when the operands are read (`Placed.instruction_congr`).

The operand of a line is the last word in front of the comment. Another word in its place is read
as the operand, and the rest of the line as before (`OperandAt.parse?`).
-/

namespace StackMachine.Assembly

open Text

/-- The source with another text in place of a line. -/
def withLine (source : String) (number : Nat) (text : List Char) : String :=
  String.ofList (unlines ((lines source.toList).set (number - 1) text))

theorem lines_withLine {source : String} {number : Nat} {text : List Char} (h : '\n' ∉ text) :
    lines (withLine source number text).toList =
      (lines source.toList).set (number - 1) text := by
  rw [withLine, String.toList_ofList]
  apply lines_unlines
  · intro l hl
    rcases List.mem_or_eq_of_mem_set hl with hl | rfl
    · exact newline_not_mem_of_mem_lines hl
    · exact h
  · rw [ne_eq, List.set_eq_nil_iff]
    exact lines_ne_nil _

/-! ### Operands in their lines -/

/-- A line has an operand between two parts of its text. Only blanks and a comment stand behind it,
so the operand and its line tell the two parts. -/
structure OperandAt (text front : List Char) (operand : String) (back : List Char) : Prop where
  text_eq : text = front ++ (operand.toList ++ back)
  stripped : stripComment text = front ++ (operand.toList ++ stripComment back)
  blanks : Blanks (stripComment back)

/-- In the text of a line, another operand can stand in place of its own. -/
theorem LineText.exists_operand {cs : List Char} {line : Line} {s : Statement} {operand : String}
    (h : LineText line cs) (hs : line.statement = some s) (ho : s.operand = some operand) :
    IsOperand operand.toList ∧ ∃ front trail, Blanks trail ∧
      cs = front ++ (operand.toList ++ trail) ∧
      ∀ other : String, IsOperand other.toList →
        LineText { line with statement := some { s with operand := some other } }
          (front ++ (other.toList ++ trail)) := by
  obtain ⟨listing, label, statement, hn, hl, hstatement, rfl⟩ := h
  rw [hs] at hstatement
  cases hstatement with
  | @some lead behind _ hlead hm hoperand =>
    rw [ho] at hoperand
    cases hoperand with
    | @some gap trail _ hne hg hword ht =>
      refine ⟨hword, listing ++ (label ++ (lead ++ (s.mnemonic.toList ++ gap))), trail, ht, ?_, ?_⟩
      · simp only [List.append_assoc]
      · intro other hother
        refine ⟨listing, label, _, hn, hl, .some hlead hm (.some hne hg hother ht), ?_⟩
        simp only [List.append_assoc]

theorem unmarked_of_isBlank {c : Char} (h : isBlank c = true) : Unmarked c := by
  refine ⟨?_, ?_, ?_⟩ <;> (rintro rfl; revert h; decide)

/-- Where there is an operand it can be told from the rest of the line. -/
theorem exists_operandAt {text : List Char} {line : Line} {s : Statement} {operand : String}
    (hl : Line.parse? (stripComment text) = some line) (hs : line.statement = some s)
    (ho : s.operand = some operand) : ∃ front back, OperandAt text front operand back := by
  obtain ⟨-, front, trail, ht, hcs, -⟩ := (lineText_of_parse? hl).exists_operand hs ho
  obtain ⟨comment, htext, hcomment⟩ := exists_comment text
  have hback : stripComment (trail ++ comment) = trail := by
    rw [stripComment_append fun c hc => unmarked_of_isBlank (ht c hc), hcomment, List.append_nil]
  refine ⟨front, trail ++ comment, ?_, ?_, ?_⟩
  · rw [hcs] at htext
    rw [htext, List.append_assoc, List.append_assoc]
  · rw [hback, hcs]
  · rwa [hback]

theorem takeWhile_isBlank_reverse {front word trail : List Char} (hw : IsOperand word)
    (ht : Blanks trail) :
    (front ++ (word ++ trail)).reverse.takeWhile isBlank = trail.reverse := by
  rw [← List.append_assoc, List.reverse_append]
  apply takeWhile_append_of_head?
  · exact fun c hc => ht c (List.mem_reverse.1 hc)
  · intro c hc
    rw [List.reverse_append, List.head?_append_of_ne_nil _ (by simpa using hw.1)] at hc
    exact hw.2 c (List.mem_reverse.1 (List.mem_of_mem_head? hc))

/-- The blanks behind the last word of a text tell where it stands. -/
theorem last_word_unique {front front' word trail trail' : List Char} (hw : IsOperand word)
    (ht : Blanks trail) (ht' : Blanks trail')
    (h : front' ++ (word ++ trail') = front ++ (word ++ trail)) :
    front' = front ∧ trail' = trail := by
  have htrail : trail' = trail := by
    rw [← List.reverse_inj, ← takeWhile_isBlank_reverse hw ht', h, takeWhile_isBlank_reverse hw ht]
  rw [htrail] at h
  exact ⟨List.append_cancel_right h, htrail⟩

/-- An operand is in one place of its line only. -/
theorem OperandAt.unique {text front back front' back' : List Char} {operand : String}
    (hw : IsOperand operand.toList) (h : OperandAt text front operand back)
    (h' : OperandAt text front' operand back') : front' = front ∧ back' = back := by
  obtain ⟨rfl, -⟩ := last_word_unique hw h.blanks h'.blanks (h'.stripped.symm.trans h.stripped)
  have hback := h'.text_eq.symm.trans h.text_eq
  rw [List.append_cancel_left_eq, List.append_cancel_left_eq] at hback
  exact ⟨rfl, hback⟩

/-- **Another word in place of the operand is read as the operand**, and the rest of the line as
before, if no comment begins in that word and no label ends with it. -/
theorem OperandAt.parse? {text front back : List Char} {line : Line} {s : Statement}
    {operand other : String} (h : OperandAt text front operand back)
    (hl : Line.parse? (stripComment text) = some line) (hs : line.statement = some s)
    (ho : s.operand = some operand) (hword : IsOperand other.toList)
    (hmark : ∀ c ∈ other.toList, Unmarked c) (hcolon : other.toList.head? ≠ some ':') :
    Line.parse? (stripComment (front ++ (other.toList ++ back))) =
      some { line with statement := some { s with operand := some other } } := by
  obtain ⟨hoperand, front', trail, ht, hcs, hread⟩ :=
    (lineText_of_parse? hl).exists_operand hs ho
  obtain ⟨rfl, rfl⟩ := last_word_unique hoperand ht h.blanks (h.stripped.symm.trans hcs)
  have hfree : stripComment front = front := by
    have hwhole := stripComment_stripComment text
    rw [h.stripped] at hwhole
    exact stripComment_of_append hwhole
  rw [stripComment_append_word hfree hword.1 hmark]
  apply parse?_of_lineText (hread other hword)
  rintro - _ ⟨⟩ _ ⟨⟩
  exact hcolon

/-! ### What stays of a layout -/

/-- Lines contribute the same when one of them is replaced by one that takes as many bytes and
contributes the same. -/
theorem map_collect_set {α β : Type} {f : Reading → (number offset : Nat) → Option α} (g : α → β)
    {rs : List Reading} {k number offset : Nat} {r s : Reading} (hr : rs[k]? = some r)
    (hsize : s.size = r.size)
    (hf : (f s (number + k) (offset + extent (rs.take k))).map g =
      (f r (number + k) (offset + extent (rs.take k))).map g) :
    (collect f number offset (rs.set k s)).map g = (collect f number offset rs).map g := by
  induction rs generalizing k number offset with
  | nil => cases hr
  | cons q rs ih =>
    cases k with
    | zero =>
      cases hr
      simp only [List.set_cons_zero, collect, List.map_append, hsize, ← Option.toList_map]
      exact congrArg (·.toList ++ _) hf
    | succ k =>
      have hnext : number + (k + 1) = number + 1 + k := by omega
      rw [List.take_succ_cons, extent_cons, hnext, ← Nat.add_assoc] at hf
      rw [List.set_cons_succ, collect, collect, List.map_append, List.map_append, ih hr hf]

theorem map_fst_definitions (number offset : Nat) (rs : List Reading) :
    (definitions number offset rs).map Prod.fst = rs.filterMap Reading.label := by
  induction rs generalizing number offset with
  | nil => rfl
  | cons r rs ih =>
    obtain ⟨_ | label, entry⟩ := r
    · exact ih _ _
    · exact congrArg (label :: ·) (ih _ _)

theorem Layout.labels_ofReadings (rs : List Reading) :
    (ofReadings rs).labels = (definitions 1 0 rs).reverse := by
  simp [ofReadings, extend, empty]

namespace Placed

/-- What an operand is read as depends on the offsets of the labels and on nothing else. -/
theorem instruction_congr {layout layout' : Layout} (h : layout.labels = layout'.labels)
    (p : Placed) : p.instruction layout = p.instruction layout' := by
  have hdistance (label : String) : p.distance layout label = p.distance layout' label := by
    simp only [distance, Layout.offset?, h]
  have hvalue (imm : Immediate) : p.operandValue layout imm = p.operandValue layout' imm := by
    cases imm <;> simp only [operandValue, hdistance]
  simp only [instruction, hvalue]

end Placed

/-! ### Assembling -/

section

variable {source : String} {rs : List Reading}
  (hrs : List.Forall₂ (fun text r => Reads (stripComment text) r) (lines source.toList) rs)
  (hnodup : (rs.filterMap Reading.label).Nodup)

include hrs hnodup

theorem instructions_of_reads :
    instructions source = (placements 1 0 rs).mapM (·.instruction (.ofReadings rs)) := by
  rw [instructions, Layout.ofSource_eq_ok_iff.2 ⟨rs, hrs, hnodup, rfl⟩,
    ← Layout.toList_placed_ofReadings]
  rfl

/-- **A line can be replaced by another one with the same label and the same instruction.** -/
theorem assemble_withLine {k : Nat} {r s : Reading} {text : List Char} (hr : rs[k]? = some r)
    (htext : '\n' ∉ text) (hs : Reads (stripComment text) s) (hlabel : s.label = r.label)
    (hsize : s.size = r.size)
    (hinstruction :
      (s.placement? (k + 1) (extent (rs.take k))).map (·.instruction (.ofReadings rs)) =
        (r.placement? (k + 1) (extent (rs.take k))).map (·.instruction (.ofReadings rs))) :
    assemble (withLine source (k + 1) text) = assemble source := by
  have hreads : List.Forall₂ (fun text r => Reads (stripComment text) r)
      (lines (withLine source (k + 1) text).toList) (rs.set k s) := by
    rw [lines_withLine htext]
    exact forall₂_set hrs k hs
  have hdefinitions : definitions 1 0 (rs.set k s) = definitions 1 0 rs := by
    have hmap := map_collect_set (f := Reading.definition?) id hr hsize
      (show Option.map id (s.definition? (1 + k) (0 + extent (rs.take k))) = _ by
        rw [Reading.definition?, hlabel]
        rfl)
    rwa [List.map_id, List.map_id] at hmap
  have hlabels : (rs.set k s).filterMap Reading.label = rs.filterMap Reading.label := by
    rw [← map_fst_definitions 1 0, hdefinitions, map_fst_definitions]
  have hlayout : (Layout.ofReadings (rs.set k s)).labels = (Layout.ofReadings rs).labels := by
    rw [Layout.labels_ofReadings, Layout.labels_ofReadings, hdefinitions]
  have hsame : (placements 1 0 (rs.set k s)).map (·.instruction (.ofReadings (rs.set k s))) =
      (placements 1 0 rs).map (·.instruction (.ofReadings rs)) := by
    rw [funext (Placed.instruction_congr hlayout)]
    apply map_collect_set _ hr hsize
    rw [Nat.add_comm 1, Nat.zero_add]
    exact hinstruction
  rw [assemble, assemble, instructions_of_reads hreads (hlabels ▸ hnodup),
    instructions_of_reads hrs hnodup, mapM_congr hsame]

end

end StackMachine.Assembly
