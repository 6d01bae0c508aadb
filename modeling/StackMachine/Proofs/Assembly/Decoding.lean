import StackMachine.Proofs.Assembly.Assemble
import StackMachine.Proofs.Tiling

/-!
# Decoding what was assembled

The statements of a source are counted here off its text: each of them takes as many bytes as the
opcode of its mnemonic, and stands behind those of the lines in front of it. The layout gives these
offsets to the instructions and to the labels, and a walk over the code finds the instructions at
just these offsets, with nothing between them and nothing behind the last one (`walk_of_assemble`).
So the sizes that the first pass adds up, the bytes that the second pass writes and the bytes that
decoding takes agree on every source.
-/

namespace StackMachine.Assembly

open Text

/-! ### The statements of a text -/

/-- The statement of a line, if it has one. -/
def statementIn? (text : List Char) : Option Statement :=
  (Line.parse? (stripComment text)).bind Line.statement

/-- The label of a line, if it has one. -/
def labelIn? (text : List Char) : Option String :=
  (Line.parse? (stripComment text)).bind Line.label

/-- The labels that lines define, in their order. -/
def definedLabels (texts : List (List Char)) : List String := texts.filterMap labelIn?

/-- The statements of lines, in their order. -/
def statements (texts : List (List Char)) : List Statement := texts.filterMap statementIn?

/-- How many bytes a statement takes: as many as the opcode that its mnemonic names. -/
def Statement.size (s : Statement) : Nat := (Opcode.ofMnemonic? s.mnemonic).elim 0 Opcode.size

/-- How many bytes the statements of lines take. -/
def statementsSize (texts : List (List Char)) : Nat :=
  ((statements texts).map Statement.size).sum

/-- The statement that was laid out. -/
def Placed.statement (p : Placed) : Statement :=
  { mnemonic := p.opcode.mnemonic, operand := p.operand }

theorem ofMnemonic?_mnemonic (op : Opcode) : Opcode.ofMnemonic? op.mnemonic = some op :=
  Opcode.ofMnemonic?_eq_some_iff.2 rfl

@[simp] theorem Entry.size_statement (e : Entry) : e.statement.size = e.opcode.size := by
  simp [Statement.size, Entry.statement, ofMnemonic?_mnemonic]

@[simp] theorem Placed.size_statement (p : Placed) : p.statement.size = p.opcode.size := by
  simp [Statement.size, Placed.statement, ofMnemonic?_mnemonic]

theorem Reads.labelIn? {text : List Char} {r : Reading} (h : Reads (stripComment text) r) :
    labelIn? text = r.label := by
  obtain ⟨line, hl, hlabel, -⟩ := h.line
  rw [Assembly.labelIn?, hl, Option.bind_some, hlabel]

theorem Reads.statementIn? {text : List Char} {r : Reading} (h : Reads (stripComment text) r) :
    statementIn? text = r.entry.map Entry.statement := by
  obtain ⟨line, hl, -, hs⟩ := h.line
  rw [Assembly.statementIn?, hl, Option.bind_some, hs]

/-! ### The first pass -/

section

variable {texts : List (List Char)} {rs : List Reading}

/-- The instructions that are laid out are the statements. -/
theorem map_statement_placements
    (h : List.Forall₂ (fun text r => Reads (stripComment text) r) texts rs) (number offset : Nat) :
    (placements number offset rs).map Placed.statement = statements texts := by
  induction h generalizing number offset with
  | nil => rfl
  | @cons text r texts rs hr _ ih =>
    have hstatement := hr.statementIn?
    unfold statements at ih ⊢
    obtain ⟨label, _ | e⟩ := r
    · rw [List.filterMap_cons_none hstatement]
      exact ih _ _
    · rw [List.filterMap_cons_some hstatement]
      exact congrArg _ (ih _ _)

/-- Lines take the bytes of their statements. -/
theorem extent_eq_statementsSize
    (h : List.Forall₂ (fun text r => Reads (stripComment text) r) texts rs) :
    extent rs = statementsSize texts := by
  induction h with
  | nil => rfl
  | @cons text r texts rs hr _ ih =>
    have hstatement := hr.statementIn?
    unfold statementsSize statements at ih ⊢
    rw [extent_cons, ih]
    obtain ⟨label, _ | e⟩ := r
    · rw [List.filterMap_cons_none hstatement]
      exact Nat.zero_add _
    · rw [List.filterMap_cons_some hstatement, List.map_cons, List.sum_cons, Entry.size_statement]
      rfl

/-- The labels that are laid out are those of the lines. -/
theorem filterMap_label_eq
    (h : List.Forall₂ (fun text r => Reads (stripComment text) r) texts rs) :
    rs.filterMap Reading.label = definedLabels texts := by
  unfold definedLabels
  induction h with
  | nil => rfl
  | cons hr _ ih => rw [List.filterMap_cons, List.filterMap_cons, hr.labelIn?, ih]

/-- A label stands for the bytes of the statements in the lines in front of it. -/
theorem offset?_of_labelIn?
    (h : List.Forall₂ (fun text r => Reads (stripComment text) r) texts rs)
    (hnodup : (rs.filterMap Reading.label).Nodup) {k : Nat} {text : List Char} {label : String}
    (hk : texts[k]? = some text) (hl : labelIn? text = some label) :
    (Layout.ofReadings rs).offset? label = some (statementsSize (texts.take k)) := by
  obtain ⟨r, hr, hread⟩ := exists_getElem?_of_forall₂ h hk
  have hlabel : r.label = some label := hread.labelIn?.symm.trans hl
  have hextent := extent_eq_statementsSize (List.forall₂_take k h)
  exact (Layout.offset?_ofReadings_iff hnodup).2 ⟨k, r, hr, hlabel, hextent.symm⟩

end

/-! ### Both passes -/

/-- What is decoded is what a statement has been laid out as. -/
structure Decoded (layout : Layout) (s : Statement) (p : Placed) (l : Located) : Prop where
  /-- The statement has been laid out. -/
  statement : p.statement = s
  /-- The mnemonic names the opcode. -/
  opcode : Opcode.ofMnemonic? s.mnemonic = some l.instruction.opcode
  /-- The operand of the instruction is the one that is written. -/
  instruction : p.instruction layout = .ok l.instruction
  /-- It stands at the offset that the first pass has given to the statement. -/
  start : l.start = p.offset
  /-- It takes as many bytes as the first pass has counted. -/
  stop : l.stop = p.offset + s.size
  /-- A branch to a label goes to the offset that the label stands for. -/
  target : ∀ label, s.operand = some label → l.instruction.opcode.immediate = .branchOffset →
    startsLabel label = true →
    ∃ target : Nat, layout.offset? label = some target ∧ l.target? = some (target : Int)

/-- An instruction that stands where it was laid out, and is as long as it should be, is the
statement decoded: the distance of a branch adds up to the offset of its label. -/
theorem Placed.decoded {layout : Layout} {p : Placed} {l : Located}
    (hi : p.instruction layout = .ok l.instruction) (hstart : p.offset = l.start)
    (hstop : l.stop = l.start + l.instruction.size) : Decoded layout p.statement p l := by
  have hop : l.instruction.opcode = p.opcode := Placed.opcode_of_instruction hi
  refine ⟨rfl, ?_, hi, hstart.symm, ?_, ?_⟩
  · rw [hop]
    exact ofMnemonic?_mnemonic _
  · rw [hstop, hstart, Instruction.size, hop, Placed.size_statement]
  · intro label hl hb hs
    rw [hop] at hb
    obtain ⟨target, offset, ht, ho, hoffset⟩ := Placed.branchOffset_of_label hi hb hl hs
    have htarget : (l.start : Int) + offset.toInt = target := by omega
    refine ⟨target, ht, ?_⟩
    rw [Located.target?, ho, Option.map_some, htarget]

section

variable {texts : List (List Char)} {rs : List Reading} {is : List Instruction}
  (hrs : List.Forall₂ (fun text r => Reads (stripComment text) r) texts rs)
  (his : List.Forall₂ (fun p i => p.instruction (.ofReadings rs) = .ok i) (placements 1 0 rs) is)

include hrs his

theorem length_statements : (statements texts).length = is.length := by
  rw [← map_statement_placements hrs 1 0, List.length_map, his.length_eq]

/-- The instruction of a statement stands behind the bytes of the statements in front of it. -/
theorem laidOut_of_statement {k : Nat} {s : Statement} (hk : (statements texts)[k]? = some s) :
    ∃ (p : Placed) (l : Located), (Layout.ofReadings rs).placed[k]? = some p ∧
      p.offset = (((statements texts).take k).map Statement.size).sum ∧
      (laidOut 0 is)[k]? = some l ∧ Decoded (.ofReadings rs) s p l := by
  rw [← map_statement_placements hrs 1 0, List.getElem?_map, Option.map_eq_some_iff] at hk
  obtain ⟨p, hp, rfl⟩ := hk
  obtain ⟨l, hl, hstart, hi⟩ := exists_getElem?_of_forall₂ (forall₂_laidOut his).1 hp
  have hstop : l.stop = l.start + l.instruction.size := by
    rw [getElem?_laidOut, Option.map_eq_some_iff] at hl
    obtain ⟨i, -, rfl⟩ := hl
    rfl
  refine ⟨p, l, ?_, ?_, hl, Placed.decoded hi hstart hstop⟩
  · rw [← Array.getElem?_toList, Layout.toList_placed_ofReadings, hp]
  · have hsize : Statement.size ∘ Placed.statement = fun p => p.opcode.size :=
      funext Placed.size_statement
    rw [← map_statement_placements hrs 1 0, ← List.map_take, List.map_map, hsize,
      offset_of_getElem?_placements hp, Nat.zero_add]

end

/-- **What assembles is decoded as it was written.** A walk over the code finds an instruction for
each statement of the source, in their order, and no error. Each of them has the opcode of its
mnemonic and stands where the first pass has put it: behind the bytes of the statements in front of
it. The labels stand for offsets that are counted in the same way, and the branches to them go
there. The last instruction ends where the code ends. -/
theorem walk_of_assemble {source : String} {code : Code} (h : assemble source = .ok code) :
    ∃ layout, Layout.ofSource source.toList = .ok layout ∧ layout.Covers source.toList ∧
      (∀ item ∈ walk code, ∃ l, item.result = .ok l) ∧
      (walk code).length = (statements (lines source.toList)).length ∧
      (∀ (k : Nat) (s : Statement), (statements (lines source.toList))[k]? = some s →
        ∃ (p : Placed) (l : Located), layout.placed[k]? = some p ∧
          p.offset = (((statements (lines source.toList)).take k).map Statement.size).sum ∧
          (walk code)[k]? = some { offset := p.offset, result := .ok l } ∧
          Decoded layout s p l) ∧
      (∀ (k : Nat) (text : List Char) (label : String),
        (lines source.toList)[k]? = some text → labelIn? text = some label →
          layout.offset? label = some (statementsSize ((lines source.toList).take k))) ∧
      (∀ item, (walk code).getLast? = some item → ∃ l, item.result = .ok l ∧ l.stop = code.size) ∧
      code.size = statementsSize (lines source.toList) := by
  obtain ⟨rs, is, hrs, hnodup, his, henc⟩ := assemble_eq_ok_iff.1 h
  have hwalk := walk_of_encodeAll henc
  have hok : ∀ item ∈ walk code, ∃ l, item.result = .ok l := by
    rw [hwalk]
    intro item hm
    obtain ⟨l, -, rfl⟩ := List.mem_map.1 hm
    exact ⟨l, rfl⟩
  refine ⟨.ofReadings rs, Layout.ofSource_eq_ok_iff.2 ⟨rs, hrs, hnodup, rfl⟩,
    Layout.covers_ofReadings hrs, hok, ?_, ?_, ?_, ?_, ?_⟩
  · rw [hwalk, List.length_map, length_laidOut, length_statements hrs his]
  · intro k s hk
    obtain ⟨p, l, hp, hoffset, hl, hdecoded⟩ := laidOut_of_statement hrs his hk
    refine ⟨p, l, hp, hoffset, ?_, hdecoded⟩
    rw [hwalk, List.getElem?_map, hl, ← hdecoded.start]
    rfl
  · intro k text label hk hl
    exact offset?_of_labelIn? hrs hnodup hk hl
  · intro item hlast
    obtain ⟨l, hl⟩ := hok item (List.mem_of_getLast? hlast)
    have hstop := (tiles_walk code).stop_of_getLast? hlast
    rw [Item.stop, hl] at hstop
    exact ⟨l, hl, hstop⟩
  · rw [← extent_eq_statementsSize hrs, ← (forall₂_laidOut his).2,
      (Instruction.encodeAll_eq_ok_iff.1 henc).2, List.size_toArray, length_flatMap_bytes]

/-- A listing number, a label, comments and a blank line: the label is at the second instruction,
and the branch to it is the third. -/
theorem walk_of_assemble_loop :
    assemble "0: nop // start\n\nloop: bipush 5\n; again\n  goto loop\n" =
        .ok #[0x00, 0x10, 0x05, 0xa7, 0xff, 0xfe] ∧
      (walk #[0x00, 0x10, 0x05, 0xa7, 0xff, 0xfe]).length = 3 ∧
      ∃ l, (walk #[0x00, 0x10, 0x05, 0xa7, 0xff, 0xfe])[2]? =
          some { offset := 3, result := .ok l } ∧
        l.instruction.opcode = .goto ∧ l.target? = some 1 := by
  have hc : assemble "0: nop // start\n\nloop: bipush 5\n; again\n  goto loop\n" =
      .ok #[0x00, 0x10, 0x05, 0xa7, 0xff, 0xfe] := by decide +kernel
  obtain ⟨layout, -, -, -, hlength, hitems, hlabels, -, -⟩ := walk_of_assemble hc
  refine ⟨hc, hlength.trans (by decide +kernel), ?_⟩
  obtain ⟨p, l, -, hoffset, hitem, hdecoded⟩ :=
    hitems 2 { mnemonic := "goto", operand := some "loop" } (by decide +kernel)
  have hop : Opcode.goto = l.instruction.opcode := Option.some.inj hdecoded.opcode
  have hthree : p.offset = 3 := hoffset.trans (by decide +kernel)
  obtain ⟨target, ht, hgoes⟩ := hdecoded.target "loop" rfl (hop ▸ rfl) (by decide +kernel)
  have hone : layout.offset? "loop" = some 1 :=
    (hlabels 2 "loop: bipush 5".toList "loop" (by decide +kernel) (by decide +kernel)).trans
      (by decide +kernel)
  cases hone.symm.trans ht
  exact ⟨l, hthree ▸ hitem, hop.symm, hgoes⟩

end StackMachine.Assembly
