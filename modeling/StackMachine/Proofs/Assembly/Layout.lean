import StackMachine.Assembly.Assemble
import StackMachine.Proofs.Sequencing
import StackMachine.Proofs.Walk

/-!
# What the layout of a source holds

A source can be laid out when each of its lines can be read and no label stands in two of them
(`Layout.ofSource_eq_ok_iff`). What the layout then holds depends on the readings of the lines
alone: line after line, `collect` gathers the labels and the instructions, each with the bytes of
all the instructions in front of it as its offset. The instructions of the second pass stand at
these offsets in the code (`forall₂_laidOut`), and behind a label the next instruction stands at
the offset of the label (`continuesAt_of_label`).
-/

namespace StackMachine.Assembly

open Text

/-! ### Readings of lines -/

/-- What the layout takes from the instruction of a line. -/
structure Entry where
  opcode : Opcode
  /-- The operand, as written. -/
  operand : Option String
  /-- The listing number in front of it. -/
  listedAt : Option Int

/-- The statement that an entry is taken from. -/
def Entry.statement (e : Entry) : Statement :=
  { mnemonic := e.opcode.mnemonic, operand := e.operand }

/-- What the layout takes from a line. -/
structure Reading where
  label : Option String
  entry : Option Entry

/-- What a line, given without its comment, can be read as. -/
inductive Reads (text : List Char) : Reading → Prop
  /-- There is no instruction, and then the listing number does not matter. -/
  | bare {line : Line} (hl : Line.parse? text = some line) (hs : line.statement = none) :
      Reads text { label := line.label, entry := none }
  /-- There is an instruction. -/
  | entry {line : Line} {statement : Statement} {op : Opcode} {listedAt : Option Int}
      (hl : Line.parse? text = some line) (hs : line.statement = some statement)
      (hop : op.mnemonic = statement.mnemonic)
      (hn : Layout.listingNumber text line.listedAt = .ok listedAt) :
      Reads text
        { label := line.label
          entry := some { opcode := op, operand := statement.operand, listedAt } }

theorem Reads.line {text : List Char} {r : Reading} (h : Reads text r) :
    ∃ line, Line.parse? text = some line ∧ line.label = r.label ∧
      line.statement = r.entry.map Entry.statement := by
  cases h with
  | bare hl hs => exact ⟨_, hl, rfl, hs⟩
  | entry hl hs hop _ => exact ⟨_, hl, rfl, by simp [hs, Entry.statement, hop]⟩

/-- Where no label stands twice, a label tells its line. -/
theorem index_unique_of_label {rs : List Reading} (hnodup : (rs.filterMap Reading.label).Nodup)
    {label : String} {j k : Nat} {r s : Reading} (hr : rs[j]? = some r) (hs : rs[k]? = some s)
    (hrl : r.label = some label) (hsl : s.label = some label) : j = k := by
  have hpair := List.pairwise_iff_getElem.1 (List.pairwise_filterMap.1 hnodup)
  obtain ⟨hj, rfl⟩ := List.getElem?_eq_some_iff.1 hr
  obtain ⟨hk, rfl⟩ := List.getElem?_eq_some_iff.1 hs
  rcases Nat.lt_trichotomy j k with hlt | heq | hgt
  · exact absurd rfl (hpair j k hj hk hlt label hrl label hsl)
  · exact heq
  · exact absurd rfl (hpair k j hk hj hgt label hsl label hrl)

namespace Reading

/-- How many bytes the instruction of the line takes. -/
def size (r : Reading) : Nat := r.entry.elim 0 (·.opcode.size)

/-- The label of the line with its offset. -/
def definition? (r : Reading) (_number offset : Nat) : Option (String × Nat) :=
  r.label.map (·, offset)

/-- The instruction of the line, laid out. -/
def placement? (r : Reading) (number offset : Nat) : Option Placed :=
  r.entry.map fun e =>
    { line := number, offset, opcode := e.opcode, operand := e.operand, listedAt := e.listedAt }

end Reading

/-- How many bytes the instructions of lines take. -/
def extent (rs : List Reading) : Nat := (rs.map Reading.size).sum

@[simp] theorem extent_nil : extent [] = 0 := rfl

@[simp] theorem extent_cons (r : Reading) (rs : List Reading) :
    extent (r :: rs) = r.size + extent rs := by
  simp [extent]

@[simp] theorem extent_append (rs ss : List Reading) :
    extent (rs ++ ss) = extent rs + extent ss := by
  simp [extent]

section Collect

variable {α : Type} (f : Reading → (number offset : Nat) → Option α)

/-- What lines contribute, when the first one has the given number and offset. -/
def collect : (number offset : Nat) → List Reading → List α
  | _, _, [] => []
  | number, offset, r :: rs =>
    (f r number offset).toList ++ collect (number + 1) (offset + r.size) rs

theorem collect_append (number offset : Nat) (rs ss : List Reading) :
    collect f number offset (rs ++ ss) =
      collect f number offset rs ++
        collect f (number + rs.length) (offset + extent rs) ss := by
  induction rs generalizing number offset with
  | nil => simp [collect]
  | cons r rs ih =>
    simp only [List.cons_append, collect, ih, List.append_assoc, List.length_cons, extent_cons,
      Nat.add_assoc, Nat.add_comm 1]

variable {f}

/-- What a line contributes has the number of the line and all the bytes in front of it. -/
theorem mem_collect_iff {number offset : Nat} {rs : List Reading} {a : α} :
    a ∈ collect f number offset rs ↔
      ∃ k r, rs[k]? = some r ∧ f r (number + k) (offset + extent (rs.take k)) = some a := by
  induction rs generalizing number offset with
  | nil => simp [collect]
  | cons r rs ih =>
    have hnext (k : Nat) (s : Reading) :
        f s (number + (k + 1)) (offset + extent ((r :: rs).take (k + 1))) =
          f s (number + 1 + k) (offset + r.size + extent (rs.take k)) := by
      rw [List.take_succ_cons, extent_cons, Nat.add_assoc, Nat.add_assoc, Nat.add_comm 1]
    rw [collect, List.mem_append, Option.mem_toList, ih]
    constructor
    · rintro (h | ⟨k, s, hs, h⟩)
      · exact ⟨0, r, rfl, h⟩
      · exact ⟨k + 1, s, hs, (hnext k s).trans h⟩
    · rintro ⟨_ | k, s, hs, h⟩
      · cases hs
        exact .inl h
      · exact .inr ⟨k, s, hs, (hnext k s).symm.trans h⟩

end Collect

/-- The labels of lines with their offsets. -/
def definitions : (number offset : Nat) → List Reading → List (String × Nat) :=
  collect Reading.definition?

/-- The instructions of lines, laid out. -/
def placements : (number offset : Nat) → List Reading → List Placed :=
  collect Reading.placement?

/-! ### The first pass -/

namespace Layout

/-- The layout with more lines behind it, the first of which has the given number. -/
def extend (layout : Layout) (number : Nat) (rs : List Reading) : Layout where
  labels := (definitions number layout.size rs).reverse ++ layout.labels
  placed := layout.placed ++ (placements number layout.size rs).toArray
  size := layout.size + extent rs

@[simp] theorem extend_nil (layout : Layout) (number : Nat) : layout.extend number [] = layout := by
  simp [extend, definitions, placements, collect]

theorem extend_cons (layout : Layout) (number : Nat) (r : Reading) (rs : List Reading) :
    layout.extend number (r :: rs) = (layout.extend number [r]).extend (number + 1) rs := by
  simp only [extend, definitions, placements, collect, extent_cons, extent_nil, List.append_nil,
    List.reverse_append, List.append_assoc, Nat.add_assoc, Nat.add_zero, Array.append_assoc,
    List.append_toArray]

/-- A line with an instruction is its label and then the instruction. -/
theorem extend_entry (layout : Layout) (number : Nat) (label : Option String) (op : Opcode)
    (operand : Option String) (listedAt : Option Int) :
    layout.extend number [{ label, entry := some { opcode := op, operand, listedAt } }] =
      { layout.extend number [{ label, entry := none }] with
        placed := (layout.extend number [{ label, entry := none }]).placed.push
          { line := number, offset := (layout.extend number [{ label, entry := none }]).size,
            opcode := op, operand, listedAt }
        size := (layout.extend number [{ label, entry := none }]).size + op.size } := by
  simp [extend, definitions, placements, collect, Reading.definition?, Reading.placement?,
    Reading.size]

/-- A new line takes away the label that it defines. -/
theorem offset?_extend_eq_none_iff {layout : Layout} {number : Nat} {r : Reading}
    {label : String} :
    (layout.extend number [r]).offset? label = none ↔
      r.label ≠ some label ∧ layout.offset? label = none := by
  obtain ⟨_ | defined, entry⟩ := r
  · simp [extend, offset?, definitions, collect, Reading.definition?]
  · by_cases h : label = defined
    · simp [extend, offset?, definitions, collect, Reading.definition?, h]
    · have h' : (label == defined) = false := by simpa using h
      simp [extend, offset?, definitions, collect, Reading.definition?, List.lookup_cons, h',
        Ne.symm h]

theorem define_eq_ok_iff {layout layout' : Layout} {label : String} :
    layout.define label = .ok layout' ↔
      layout.offset? label = none ∧
        layout' = { layout with labels := (label, layout.size) :: layout.labels } := by
  unfold define
  cases layout.offset? label with
  | some offset => simp
  | none => simp [eq_comm]

theorem place_eq_ok_iff {layout layout' : Layout} {number : Nat} {text : List Char}
    {listed : Option String} {statement : Statement} :
    layout.place number text listed statement = .ok layout' ↔
      ∃ op listedAt, op.mnemonic = statement.mnemonic ∧ listingNumber text listed = .ok listedAt ∧
        layout' =
          { layout with
            placed := layout.placed.push
              { line := number, offset := layout.size, opcode := op, operand := statement.operand,
                listedAt }
            size := layout.size + op.size } := by
  simp only [← Opcode.ofMnemonic?_eq_some_iff]
  unfold place
  cases Opcode.ofMnemonic? statement.mnemonic with
  | none => simp [throw, throwThe, MonadExceptOf.throw]
  | some op =>
    simp only [bind_eq_ok_iff, Option.some.injEq]
    constructor
    · rintro ⟨listedAt, hn, h⟩
      exact ⟨op, listedAt, rfl, hn, (Except.ok.inj h).symm⟩
    · rintro ⟨_, listedAt, rfl, hn, rfl⟩
      exact ⟨listedAt, hn, rfl⟩

/-- A line that can be taken apart defines its label and then places its statement. -/
theorem addLine_of_parse? {layout : Layout} {number : Nat} {text : List Char} {line : Line}
    (hl : Line.parse? text = some line) :
    layout.addLine number text =
      line.label.elim (.ok layout) layout.define >>= fun layout =>
        line.statement.elim (.ok layout) (layout.place number text line.listedAt) := by
  unfold addLine
  rw [hl]
  obtain ⟨listedAt, _ | label, _ | statement⟩ := line <;> rfl

theorem defineLabel_eq_ok_iff {layout layout' : Layout} (number : Nat) {label : Option String} :
    label.elim (.ok layout) layout.define = .ok layout' ↔
      (∀ name, label = some name → layout.offset? name = none) ∧
        layout' = layout.extend number [{ label, entry := none }] := by
  cases label with
  | none =>
    simp only [extend, definitions, placements, collect, Reading.definition?, Reading.placement?,
      reduceCtorEq, false_imp_iff, implies_true, true_and]
    exact ⟨fun h => (Except.ok.inj h).symm, fun h => congrArg _ h.symm⟩
  | some name =>
    simp [define_eq_ok_iff, extend, definitions, placements, collect, Reading.definition?,
      Reading.placement?, Reading.size]

/-- A line can be added when it can be read and its label, if any, is new. -/
theorem addLine_eq_ok_iff {layout layout' : Layout} {number : Nat} {text : List Char} :
    layout.addLine number text = .ok layout' ↔
      ∃ r, Reads text r ∧ (∀ label, r.label = some label → layout.offset? label = none) ∧
        layout' = layout.extend number [r] := by
  constructor
  · intro h
    cases hl : Line.parse? text with
    | none =>
      unfold addLine at h
      rw [hl] at h
      cases h
    | some line =>
      rw [addLine_of_parse? hl, bind_eq_ok_iff] at h
      obtain ⟨middle, hd, hp⟩ := h
      obtain ⟨hnew, rfl⟩ := (defineLabel_eq_ok_iff number).1 hd
      cases hs : line.statement with
      | none =>
        rw [hs] at hp
        exact ⟨_, .bare hl hs, hnew, (Except.ok.inj hp).symm⟩
      | some statement =>
        rw [hs] at hp
        obtain ⟨op, listedAt, hop, hn, rfl⟩ := place_eq_ok_iff.1 hp
        exact ⟨_, .entry hl hs hop hn, hnew, (extend_entry _ _ _ _ _ _).symm⟩
  · rintro ⟨_, hr, hnew, rfl⟩
    cases hr with
    | bare hl hs =>
      rw [addLine_of_parse? hl, bind_eq_ok_iff, hs]
      exact ⟨_, (defineLabel_eq_ok_iff number).2 ⟨hnew, rfl⟩, rfl⟩
    | entry hl hs hop hn =>
      rw [addLine_of_parse? hl, bind_eq_ok_iff, hs]
      refine ⟨_, (defineLabel_eq_ok_iff number).2 ⟨hnew, rfl⟩, ?_⟩
      exact place_eq_ok_iff.2 ⟨_, _, hop, hn, extend_entry _ _ _ _ _ _⟩

/-- Each label of the lines is new and stands in one of them only. -/
def Fresh (layout : Layout) (rs : List Reading) : Prop :=
  (rs.filterMap Reading.label).Nodup ∧
    ∀ label ∈ rs.filterMap Reading.label, layout.offset? label = none

theorem fresh_cons_iff {layout : Layout} (number : Nat) {r : Reading} {rs : List Reading} :
    layout.Fresh (r :: rs) ↔
      (∀ label, r.label = some label → layout.offset? label = none) ∧
        (layout.extend number [r]).Fresh rs := by
  unfold Fresh
  simp only [offset?_extend_eq_none_iff]
  cases hr : r.label with
  | none => simp [List.filterMap_cons_none hr]
  | some label =>
    rw [List.filterMap_cons_some hr, List.nodup_cons, List.forall_mem_cons]
    constructor
    · rintro ⟨⟨hout, hnodup⟩, hnew, hrest⟩
      refine ⟨fun _ h => Option.some.inj h ▸ hnew, hnodup, ?_⟩
      intro other ho
      refine ⟨?_, hrest _ ho⟩
      rintro ⟨rfl⟩
      exact hout ho
    · rintro ⟨hnew, hnodup, hrest⟩
      exact ⟨⟨fun hin => (hrest _ hin).1 rfl, hnodup⟩, hnew _ rfl, fun _ ho => (hrest _ ho).2⟩

/-- Lines can be added when they can be read and their labels are fresh. -/
theorem addLines_eq_ok_iff {layout layout' : Layout} {number : Nat} {texts : List (List Char)} :
    layout.addLines number texts = .ok layout' ↔
      ∃ rs, List.Forall₂ (fun text r => Reads (stripComment text) r) texts rs ∧
        layout.Fresh rs ∧ layout' = layout.extend number rs := by
  -- The layout grows with every line, so freshness is always judged against the lines before.
  induction texts generalizing layout number with
  | nil =>
    constructor
    · rintro ⟨⟩
      exact ⟨[], .nil, ⟨.nil, by simp⟩, (extend_nil _ _).symm⟩
    · rintro ⟨rs, hrs, -, rfl⟩
      cases hrs
      rw [extend_nil]
      rfl
  | cons text texts ih =>
    unfold addLines
    constructor
    · intro h
      split at h
      · cases h
      · next middle hm =>
        obtain ⟨r, hr, hnew, rfl⟩ := addLine_eq_ok_iff.1 hm
        obtain ⟨rs, hrs, hfresh, rfl⟩ := ih.1 h
        exact ⟨r :: rs, .cons hr hrs, (fresh_cons_iff number).2 ⟨hnew, hfresh⟩,
          (extend_cons _ _ _ _).symm⟩
    · rintro ⟨_, hrs, hfresh, rfl⟩
      cases hrs with
      | cons hr hrs =>
        obtain ⟨hnew, hfresh⟩ := (fresh_cons_iff number).1 hfresh
        rw [addLine_eq_ok_iff.2 ⟨_, hr, hnew, rfl⟩]
        exact ih.2 ⟨_, hrs, hfresh, extend_cons _ _ _ _⟩

/-- The layout of lines. -/
def ofReadings (rs : List Reading) : Layout := empty.extend 1 rs

/-- **When there is a layout**: each line of the source can be read, and no label stands in two
of them. -/
theorem ofSource_eq_ok_iff {source : List Char} {layout : Layout} :
    ofSource source = .ok layout ↔
      ∃ rs, List.Forall₂ (fun text r => Reads (stripComment text) r) (lines source) rs ∧
        (rs.filterMap Reading.label).Nodup ∧ layout = ofReadings rs := by
  have hfresh (rs : List Reading) : empty.Fresh rs ↔ (rs.filterMap Reading.label).Nodup :=
    and_iff_left fun _ _ => rfl
  unfold ofSource ofReadings
  simp only [addLines_eq_ok_iff, hfresh]

@[simp] theorem toList_placed_ofReadings (rs : List Reading) :
    (ofReadings rs).placed.toList = placements 1 0 rs := by
  simp [ofReadings, extend, empty]

theorem mem_placed_ofReadings {rs : List Reading} {p : Placed} :
    p ∈ (ofReadings rs).placed ↔ p ∈ placements 1 0 rs := by
  rw [← Array.mem_toList_iff, toList_placed_ofReadings]

@[simp] theorem size_ofReadings (rs : List Reading) : (ofReadings rs).size = extent rs :=
  Nat.zero_add _

/-- A label stands for the offset of the line that defines it. -/
theorem offset?_ofReadings {rs : List Reading} {label : String} {target : Nat}
    (h : (ofReadings rs).offset? label = some target) :
    ∃ k r, rs[k]? = some r ∧ r.label = some label ∧ target = extent (rs.take k) := by
  obtain ⟨before, after, hl, -⟩ := List.lookup_eq_some_iff.1 h
  have hmem : (label, target) ∈ definitions 1 0 rs := by
    have : (label, target) ∈ (ofReadings rs).labels := by simp [hl]
    simpa [ofReadings, extend, empty] using this
  obtain ⟨k, r, hr, hd⟩ := mem_collect_iff.1 hmem
  obtain ⟨name, hn, heq⟩ := Option.map_eq_some_iff.1 hd
  cases heq
  exact ⟨k, r, hr, hn, Nat.zero_add _⟩

/-- A label without an offset stands in no line. -/
theorem label_ne_of_offset?_eq_none {rs : List Reading} {label : String}
    (h : (ofReadings rs).offset? label = none) {k : Nat} {r : Reading} (hr : rs[k]? = some r) :
    r.label ≠ some label := by
  intro hl
  have hmem : (label, 0 + extent (rs.take k)) ∈ definitions 1 0 rs :=
    mem_collect_iff.2 ⟨k, r, hr, by rw [Reading.definition?, hl, Option.map_some]⟩
  have hlabels : (label, 0 + extent (rs.take k)) ∈ (ofReadings rs).labels := by
    simpa [ofReadings, extend, empty] using hmem
  exact absurd (List.lookup_eq_none_iff.1 h _ hlabels) (by simp)

/-- Where no label stands twice, a label stands for the offset of its line. -/
theorem offset?_ofReadings_iff {rs : List Reading} (hnodup : (rs.filterMap Reading.label).Nodup)
    {label : String} {target : Nat} :
    (ofReadings rs).offset? label = some target ↔
      ∃ k r, rs[k]? = some r ∧ r.label = some label ∧ target = extent (rs.take k) := by
  constructor
  · exact offset?_ofReadings
  · rintro ⟨k, r, hr, hlabel, rfl⟩
    cases h : (ofReadings rs).offset? label with
    | none => exact absurd hlabel (label_ne_of_offset?_eq_none h hr)
    | some target =>
      obtain ⟨j, s, hs, hlabel', rfl⟩ := offset?_ofReadings h
      rw [index_unique_of_label hnodup hs hr hlabel' hlabel]

end Layout

/-! ### Instructions in their order -/

theorem line_of_mem_placements {number offset : Nat} {rs : List Reading} {p : Placed}
    (h : p ∈ placements number offset rs) : number ≤ p.line ∧ p.line < number + rs.length := by
  obtain ⟨k, r, hr, hp⟩ := mem_collect_iff.1 h
  obtain ⟨e, -, rfl⟩ := Option.map_eq_some_iff.1 hp
  exact ⟨Nat.le_add_right _ _, Nat.add_lt_add_left (List.getElem?_eq_some_iff.1 hr).1 _⟩

/-- The instructions of lines begin at the offset of the first line. -/
theorem placements_cases (number offset : Nat) (rs : List Reading) :
    (placements number offset rs = [] ∧ extent rs = 0) ∨
      ∃ p ps, placements number offset rs = p :: ps ∧ p.offset = offset ∧
        ∀ q ∈ ps, p.line < q.line := by
  induction rs generalizing number with
  | nil => exact .inl ⟨rfl, rfl⟩
  | cons r rs ih =>
    obtain ⟨label, _ | e⟩ := r
    · rcases ih (number + 1) with ⟨hp, he⟩ | ⟨p, ps, hp, ho, hlt⟩
      · exact .inl ⟨hp, by rw [extent_cons, he]; rfl⟩
      · exact .inr ⟨p, ps, hp, ho, hlt⟩
    · exact .inr ⟨_, _, rfl, rfl, fun q hq => (line_of_mem_placements hq).1⟩

/-- Each instruction stands behind all the bytes of those in front of it. -/
theorem offset_of_getElem?_placements {number offset : Nat} {rs : List Reading} {k : Nat}
    {p : Placed} (h : (placements number offset rs)[k]? = some p) :
    p.offset = offset + (((placements number offset rs).take k).map (·.opcode.size)).sum := by
  induction rs generalizing number offset k with
  | nil => cases h
  | cons r rs ih =>
    obtain ⟨label, _ | e⟩ := r
    · exact ih h
    · cases k with
      | zero =>
        cases h
        rfl
      | succ k =>
        refine (ih (k := k) h).trans ?_
        rw [Nat.add_assoc]
        rfl

theorem pairwise_placements (number offset : Nat) (rs : List Reading) :
    (placements number offset rs).Pairwise (·.line < ·.line) := by
  induction rs generalizing number offset with
  | nil => exact .nil
  | cons r rs ih =>
    obtain ⟨label, _ | e⟩ := r
    · exact ih _ _
    · exact .cons (fun q hq => (line_of_mem_placements hq).1) (ih _ _)

/-- Execution goes on at the first instruction from a line on, or at the end if there is none. -/
def Layout.ContinuesAt (layout : Layout) (number : Nat) (pc : Int) : Prop :=
  (∃ p ∈ layout.placed, number ≤ p.line ∧
    (∀ q ∈ layout.placed, number ≤ q.line → p.line ≤ q.line) ∧ pc = p.offset) ∨
  (∀ p ∈ layout.placed, p.line < number) ∧ pc = layout.size

/-- At the offset of a line stands the first instruction from that line on. -/
theorem Layout.continuesAt_extent {rs : List Reading} {k : Nat} (hk : k ≤ rs.length) :
    (ofReadings rs).ContinuesAt (k + 1) (extent (rs.take k)) := by
  -- The lines in front of this one have smaller numbers; the first instruction of the others
  -- begins where they begin, as lines without one take no bytes.
  have hp : (ofReadings rs).placed.toList =
      placements 1 0 (rs.take k) ++ placements (1 + k) (extent (rs.take k)) (rs.drop k) := by
    have h := collect_append Reading.placement? 1 0 (rs.take k) (rs.drop k)
    rw [List.take_append_drop, List.length_take_of_le hk, Nat.zero_add] at h
    exact (toList_placed_ofReadings rs).trans h
  have hs : (ofReadings rs).size = extent (rs.take k) + extent (rs.drop k) := by
    rw [← extent_append, List.take_append_drop, size_ofReadings]
  have hbefore : ∀ p ∈ placements 1 0 (rs.take k), p.line < k + 1 := by
    intro p hp
    have := (line_of_mem_placements hp).2
    rw [List.length_take_of_le hk] at this
    omega
  simp only [ContinuesAt, ← Array.mem_toList_iff, hp, List.mem_append, hs]
  rcases placements_cases (1 + k) (extent (rs.take k)) (rs.drop k) with
    ⟨he, hz⟩ | ⟨p, ps, he, ho, hlt⟩
  · right
    rw [he, hz]
    exact ⟨fun p hp => hbefore p (hp.resolve_right (List.not_mem_nil)), rfl⟩
  · left
    rw [he]
    have hle := (line_of_mem_placements (he ▸ List.mem_cons_self : p ∈ placements _ _ _)).1
    refine ⟨p, .inr (.head _), by omega, ?_, by rw [ho]⟩
    rintro q (hq | _ | ⟨_, hq⟩) hn
    · have := hbefore q hq
      omega
    · exact Nat.le_refl _
    · exact Nat.le_of_lt (hlt q hq)

/-! ### The lines of a source -/

/-- A line of a source, without its comment and taken apart; the first line has number one. -/
def LineAt (source : List Char) (number : Nat) (line : Line) : Prop :=
  ∃ k text, number = k + 1 ∧ (lines source)[k]? = some text ∧
    Line.parse? (stripComment text) = some line

/-- A line of a source defines a label. -/
def Defines (source : List Char) (number : Nat) (label : String) : Prop :=
  ∃ line, LineAt source number line ∧ line.label = some label

/-- A layout holds the instruction lines of a source in their order, each of them at the total size
of those in front of it. -/
structure Layout.Covers (layout : Layout) (source : List Char) : Prop where
  /-- Everything placed is the instruction of its line. -/
  line_of_mem : ∀ p ∈ layout.placed, ∃ line, LineAt source p.line line ∧
    line.statement = some { mnemonic := p.opcode.mnemonic, operand := p.operand }
  /-- Every instruction is placed. -/
  mem_of_line : ∀ number line, LineAt source number line → line.statement ≠ none →
    ∃ p ∈ layout.placed, p.line = number
  /-- Instructions are placed in the order of their lines. -/
  sorted : layout.placed.toList.Pairwise (·.line < ·.line)
  /-- Instructions are placed one behind the other. -/
  offset : ∀ k p, layout.placed[k]? = some p →
    p.offset = ((layout.placed.toList.take k).map (·.opcode.size)).sum

section Lines

variable {source : List Char} {rs : List Reading}
  (hrs : List.Forall₂ (fun text r => Reads (stripComment text) r) (lines source) rs)

include hrs

theorem lineAt_of_getElem? {k : Nat} {r : Reading} (hr : rs[k]? = some r) :
    ∃ line, LineAt source (k + 1) line ∧ line.label = r.label ∧
      line.statement = r.entry.map Entry.statement := by
  obtain ⟨text, ht, hread⟩ := exists_getElem?_of_forall₂ hrs.flip hr
  obtain ⟨line, hl, hlabel, hstatement⟩ := hread.line
  exact ⟨line, ⟨k, text, rfl, ht, hl⟩, hlabel, hstatement⟩

theorem getElem?_of_lineAt {number : Nat} {line : Line} (h : LineAt source number line) :
    ∃ k r, number = k + 1 ∧ rs[k]? = some r ∧ line.label = r.label ∧
      line.statement = r.entry.map Entry.statement := by
  obtain ⟨k, text, rfl, ht, hl⟩ := h
  obtain ⟨r, hr, hread⟩ := exists_getElem?_of_forall₂ hrs ht
  obtain ⟨line', hl', hlabel, hstatement⟩ := hread.line
  cases hl.symm.trans hl'
  exact ⟨k, r, rfl, hr, hlabel, hstatement⟩

/-- The layout of lines holds the instructions among them. -/
theorem Layout.covers_ofReadings : (ofReadings rs).Covers source where
  line_of_mem := by
    intro p hp
    obtain ⟨k, r, hr, hplace⟩ := mem_collect_iff.1 (mem_placed_ofReadings.1 hp)
    obtain ⟨e, he, rfl⟩ := Option.map_eq_some_iff.1 hplace
    obtain ⟨line, hl, -, hs⟩ := lineAt_of_getElem? hrs hr
    rw [he] at hs
    rw [Nat.add_comm] at hl
    exact ⟨line, hl, hs⟩
  mem_of_line := by
    intro number line h hne
    obtain ⟨k, r, rfl, hr, -, hs⟩ := getElem?_of_lineAt hrs h
    cases he : r.entry with
    | none => exact absurd (by rw [hs, he]; rfl) hne
    | some e =>
      obtain ⟨p, hp, hline⟩ : ∃ p, r.placement? (1 + k) (0 + extent (rs.take k)) = some p ∧
          p.line = 1 + k := by
        rw [Reading.placement?, he]
        exact ⟨_, rfl, rfl⟩
      have hmem : p ∈ placements 1 0 rs := mem_collect_iff.2 ⟨k, r, hr, hp⟩
      exact ⟨p, mem_placed_ofReadings.2 hmem, hline.trans (Nat.add_comm 1 k)⟩
  sorted := by
    rw [toList_placed_ofReadings]
    exact pairwise_placements _ _ _
  offset := by
    intro k p hp
    rw [← Array.getElem?_toList, toList_placed_ofReadings] at hp
    rw [toList_placed_ofReadings, offset_of_getElem?_placements hp, Nat.zero_add]

/-- A label stands in one line only. -/
theorem Defines.unique (hnodup : (rs.filterMap Reading.label).Nodup) {label : String} {m n : Nat}
    (hm : Defines source m label) (hn : Defines source n label) : m = n := by
  obtain ⟨_, hl, hlabel⟩ := hm
  obtain ⟨_, hl', hlabel'⟩ := hn
  obtain ⟨j, r, rfl, hr, e, -⟩ := getElem?_of_lineAt hrs hl
  obtain ⟨k, s, rfl, hs, e', -⟩ := getElem?_of_lineAt hrs hl'
  rw [e] at hlabel
  rw [e'] at hlabel'
  rw [index_unique_of_label hnodup hr hs hlabel hlabel']

end Lines

end StackMachine.Assembly
