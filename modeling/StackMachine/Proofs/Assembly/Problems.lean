import StackMachine.Proofs.Assembly.Operands

/-!
# Which error is reported

Assembling looks at the lines twice. What is wrong with a line of its own is found first: it cannot
be read, it defines a label of an earlier line, no instruction has its name, or its listing number
is none (`LineProblem`). Only when nothing of that kind is wrong with any line, the operands are
looked at (`OperandProblem`). Each time the first line that has a problem is reported, with that
problem, and without any the source assembles (`first_problem_is_reported`). A number that leaves 64
bits counts among the problems: there, too, nothing is assembled.
-/

namespace StackMachine.Assembly

open Text

/-! ### Problems of a line -/

/-- The digits of a listing number that counts: those of a decimal number of 63 bits. -/
def IsListingNumber (digits : String) : Prop :=
  ∃ n < 2 ^ 63, Numeral.DigitsText 10 n digits.toList

/-- What is wrong with a line behind other lines, whatever the operands are. -/
inductive LineProblem (before : List (List Char)) (text : List Char) : Problem → Prop
  /-- It is no line. -/
  | unreadable (hl : Line.parse? (stripComment text) = none) :
      LineProblem before text (.unreadable (String.ofList (trim (stripComment text))))
  /-- It defines a label that is defined in front of it. -/
  | duplicateLabel {line : Line} {label : String} (hl : Line.parse? (stripComment text) = some line)
      (hlabel : line.label = some label) (hbefore : label ∈ definedLabels before) :
      LineProblem before text (.duplicateLabel label)
  /-- Its label is new, but no instruction has its mnemonic. -/
  | unknownMnemonic {line : Line} {s : Statement} (hl : Line.parse? (stripComment text) = some line)
      (hnew : ∀ label ∈ line.label, label ∉ definedLabels before) (hs : line.statement = some s)
      (hop : ∀ op : Opcode, op.mnemonic ≠ s.mnemonic) :
      LineProblem before text (.unknownMnemonic s.mnemonic)
  /-- It has an instruction and a listing number that does not count. -/
  | listingNumber {line : Line} {s : Statement} {op : Opcode} {digits : String}
      (hl : Line.parse? (stripComment text) = some line)
      (hnew : ∀ label ∈ line.label, label ∉ definedLabels before) (hs : line.statement = some s)
      (hop : op.mnemonic = s.mnemonic) (hd : line.listedAt = some digits)
      (hn : ¬ IsListingNumber digits) :
      LineProblem before text (.unreadable (String.ofList (trim (stripComment text))))

/-- A line of a source has a problem of its own. -/
def ProblemAt (texts : List (List Char)) (k : Nat) (problem : Problem) : Prop :=
  ∃ text, texts[k]? = some text ∧ LineProblem (texts.take k) text problem

/-- A line has one of these problems, and no line in front of it has any. -/
structure FirstAt (problems : Nat → Problem → Prop) (k : Nat) (problem : Problem) : Prop where
  here : problems k problem
  front : ∀ j < k, ∀ other, ¬ problems j other

/-! ### One line -/

/-- The digits of a listing number are read, if they are read at all, as digits without a sign. -/
theorem isListingNumber_iff {digits : String} (h : IsDigits digits.toList) :
    IsListingNumber digits ↔ ∃ n, Numeral.signed? 10 digits.toList = some n := by
  simp only [Numeral.signed?_eq_some_iff]
  constructor
  · rintro ⟨n, hn, hdigits⟩
    exact ⟨n, 1, [], n, _, .none, hdigits, rfl, (Int.one_mul _).symm, by omega, by omega⟩
  · rintro ⟨_, s, sign, n, ds, hs, hdigits, hsplit, rfl, hfits⟩
    cases hs with
    | none =>
      have hlt := hfits.2
      exact ⟨n, by omega, hsplit ▸ hdigits⟩
    | plus | minus =>
      rw [hsplit] at h
      exact absurd (h.2 _ List.mem_cons_self) (by decide +kernel)

namespace Layout

theorem listingNumber_eq_error_iff {text : List Char} {listed : Option String} {problem : Problem}
    (h : ∀ digits, listed = some digits → IsDigits digits.toList) :
    listingNumber text listed = .error problem ↔
      ∃ digits, listed = some digits ∧ ¬ IsListingNumber digits ∧
        problem = .unreadable (String.ofList (trim text)) := by
  cases listed with
  | none => simp [listingNumber]
  | some digits =>
    simp only [Option.some.injEq, exists_eq_left', isListingNumber_iff (h digits rfl)]
    cases hn : Numeral.signed? 10 digits.toList <;> simp [listingNumber, hn, eq_comm]

theorem define_eq_error_iff {layout : Layout} {label : String} {problem : Problem} :
    layout.define label = .error problem ↔
      layout.offset? label ≠ none ∧ problem = .duplicateLabel label := by
  unfold define
  cases layout.offset? label <;> simp [eq_comm]

theorem place_eq_error_iff {layout : Layout} {number : Nat} {text : List Char}
    {listed : Option String} {s : Statement} {problem : Problem} :
    layout.place number text listed s = .error problem ↔
      ((∀ op : Opcode, op.mnemonic ≠ s.mnemonic) ∧ problem = .unknownMnemonic s.mnemonic) ∨
        ∃ op : Opcode, op.mnemonic = s.mnemonic ∧ listingNumber text listed = .error problem := by
  simp only [ne_eq, ← Opcode.ofMnemonic?_eq_some_iff]
  unfold place
  cases Opcode.ofMnemonic? s.mnemonic with
  | none => simp [throw, throwThe, MonadExceptOf.throw, eq_comm]
  | some op =>
    simp only [bind_eq_error_iff, Option.some.injEq, exists_eq_left']
    constructor
    · rintro (hn | ⟨listedAt, -, hok⟩)
      · exact .inr hn
      · cases hok
    · rintro (⟨hnone, -⟩ | hn)
      · exact absurd rfl (hnone op)
      · exact .inl hn

theorem offset?_eq_none_iff {texts : List (List Char)} {layout : Layout}
    (h : empty.addLines 1 texts = .ok layout) {label : String} :
    layout.offset? label = none ↔ label ∉ definedLabels texts := by
  obtain ⟨rs, hrs, -, rfl⟩ := addLines_eq_ok_iff.1 h
  rw [← filterMap_label_eq hrs, List.mem_filterMap]
  constructor
  · rintro hnone ⟨r, hr, hlabel⟩
    obtain ⟨k, hk⟩ := List.getElem?_of_mem hr
    exact label_ne_of_offset?_eq_none hnone hk hlabel
  · intro hnone
    cases ht : (empty.extend 1 rs).offset? label with
    | none => rfl
    | some target =>
      obtain ⟨k, r, hr, hlabel, -⟩ := offset?_ofReadings ht
      exact absurd ⟨r, List.mem_of_getElem? hr, hlabel⟩ hnone

/-- A label is new if no line in front defines it. -/
theorem defineLabel_eq_error_iff {before : List (List Char)} {layout : Layout}
    (h : empty.addLines 1 before = .ok layout) {label : Option String} {problem : Problem} :
    label.elim (.ok layout) layout.define = .error problem ↔
      ∃ name ∈ definedLabels before, label = some name ∧ problem = .duplicateLabel name := by
  cases label with
  | none => simp
  | some name =>
    show layout.define name = _ ↔ _
    rw [define_eq_error_iff, ne_eq, offset?_eq_none_iff h, not_not]
    simp

/-- A line is rejected for what is wrong with it. -/
theorem addLine_eq_error_iff {before : List (List Char)} {layout : Layout}
    (h : empty.addLines 1 before = .ok layout) {number : Nat} {text : List Char}
    {problem : Problem} :
    layout.addLine number (stripComment text) = .error problem ↔
      LineProblem before text problem := by
  constructor
  · intro herror
    cases hl : Line.parse? (stripComment text) with
    | none =>
      rw [addLine, hl] at herror
      cases herror
      exact .unreadable hl
    | some line =>
      rw [addLine_of_parse? hl, bind_eq_error_iff] at herror
      rcases herror with hdefine | ⟨layout', hdefine, hplace⟩
      · obtain ⟨name, hbefore, hlabel, rfl⟩ := (defineLabel_eq_error_iff h).1 hdefine
        exact .duplicateLabel hl hlabel hbefore
      · have hnew : ∀ label ∈ line.label, label ∉ definedLabels before := fun label hlabel =>
          (offset?_eq_none_iff h).1 (((defineLabel_eq_ok_iff number).1 hdefine).1 label hlabel)
        cases hs : line.statement with
        | none =>
          rw [hs] at hplace
          cases hplace
        | some s =>
          rw [hs] at hplace
          rcases place_eq_error_iff.1 hplace with ⟨hop, rfl⟩ | ⟨op, hop, hlisting⟩
          · exact .unknownMnemonic hl hnew hs hop
          · obtain ⟨digits, hd, hn, rfl⟩ :=
              (listingNumber_eq_error_iff fun _ => isDigits_of_parse? hl).1 hlisting
            exact .listingNumber hl hnew hs hop hd hn
  · intro hproblem
    have hdefine {line : Line} (hnew : ∀ label ∈ line.label, label ∉ definedLabels before) :
        ∃ layout', line.label.elim (.ok layout) layout.define = .ok layout' :=
      ⟨_, (defineLabel_eq_ok_iff number).2
        ⟨fun label hlabel => (offset?_eq_none_iff h).2 (hnew label hlabel), rfl⟩⟩
    cases hproblem with
    | unreadable hl =>
      rw [addLine, hl]
      rfl
    | duplicateLabel hl hlabel hbefore =>
      rw [addLine_of_parse? hl, bind_eq_error_iff]
      exact .inl ((defineLabel_eq_error_iff h).2 ⟨_, hbefore, hlabel, rfl⟩)
    | unknownMnemonic hl hnew hs hop =>
      obtain ⟨layout', hlayout'⟩ := hdefine hnew
      rw [addLine_of_parse? hl, bind_eq_error_iff, hs]
      exact .inr ⟨layout', hlayout', place_eq_error_iff.2 (.inl ⟨hop, rfl⟩)⟩
    | listingNumber hl hnew hs hop hd hn =>
      obtain ⟨layout', hlayout'⟩ := hdefine hnew
      rw [addLine_of_parse? hl, bind_eq_error_iff, hs]
      refine .inr ⟨layout', hlayout', place_eq_error_iff.2 (.inr ⟨_, hop, ?_⟩)⟩
      exact (listingNumber_eq_error_iff fun _ => isDigits_of_parse? hl).2 ⟨_, hd, hn, rfl⟩

/-! ### All lines -/

theorem addLines_append (layout : Layout) (number : Nat) (xs ys : List (List Char)) :
    layout.addLines number (xs ++ ys) =
      layout.addLines number xs >>= fun layout => layout.addLines (number + xs.length) ys := by
  induction xs generalizing layout number with
  | nil => rfl
  | cons x xs ih =>
    simp only [List.cons_append, addLines]
    cases layout.addLine number (stripComment x) with
    | error problem => rfl
    | ok layout =>
      simp only [ih, List.length_cons]
      rw [Nat.add_assoc, Nat.add_comm 1]

/-- The first line that is rejected is reported. -/
theorem addLines_eq_error_iff {layout : Layout} {number : Nat} {texts : List (List Char)}
    {e : Error} :
    layout.addLines number texts = .error e ↔
      ∃ before text after layout', texts = before ++ text :: after ∧
        layout.addLines number before = .ok layout' ∧ e.line = number + before.length ∧
        layout'.addLine e.line (stripComment text) = .error e.problem := by
  constructor
  · intro h
    induction texts generalizing layout number with
    | nil => cases h
    | cons text texts ih =>
      rw [addLines] at h
      cases hadd : layout.addLine number (stripComment text) with
      | error problem =>
        rw [hadd] at h
        cases h
        exact ⟨[], text, texts, layout, rfl, rfl, rfl, hadd⟩
      | ok middle =>
        rw [hadd] at h
        obtain ⟨before, other, after, layout', rfl, hbefore, hline, herror⟩ := ih h
        refine ⟨text :: before, other, after, layout', rfl, ?_, ?_, herror⟩
        · rw [addLines, hadd]
          exact hbefore
        · rw [hline, List.length_cons]
          omega
  · rintro ⟨before, text, after, layout', rfl, hbefore, hline, herror⟩
    rw [addLines_append, hbefore]
    show layout'.addLines (number + before.length) (text :: after) = _
    rw [addLines, ← hline, herror]

end Layout

/-! ### Problems of lines -/

/-- The lines in front of a line have the problems that they have in the source. -/
theorem problemAt_take_iff {texts : List (List Char)} {n k : Nat} {problem : Problem} :
    ProblemAt (texts.take n) k problem ↔ k < n ∧ ProblemAt texts k problem := by
  unfold ProblemAt
  by_cases h : k < n
  · simp [h, List.take_take, Nat.min_eq_left (Nat.le_of_lt h)]
  · simp [h]

theorem problemAt_of_lineProblem {before after : List (List Char)} {text : List Char}
    {problem : Problem} (h : LineProblem before text problem) :
    ProblemAt (before ++ text :: after) before.length problem := by
  refine ⟨text, by simp, ?_⟩
  rwa [List.take_left]

section

variable {texts : List (List Char)}

theorem ProblemAt.split {k : Nat} {problem : Problem} (h : ProblemAt texts k problem) :
    ∃ text, texts = texts.take k ++ text :: texts.drop (k + 1) ∧
      (texts.take k).length = k ∧ LineProblem (texts.take k) text problem := by
  obtain ⟨text, ht, hproblem⟩ := h
  obtain ⟨hk, rfl⟩ := List.getElem?_eq_some_iff.1 ht
  refine ⟨texts[k], ?_, List.length_take_of_le (Nat.le_of_lt hk), hproblem⟩
  rw [← List.drop_eq_getElem_cons hk, List.take_append_drop]

/-- **Lines can be laid out** exactly when none of them has a problem. -/
theorem exists_addLines_eq_ok_iff :
    (∃ layout, Layout.empty.addLines 1 texts = .ok layout) ↔
      ∀ k problem, ¬ ProblemAt texts k problem := by
  constructor
  · rintro ⟨layout, hok⟩ k problem h
    obtain ⟨text, hsplit, -, hproblem⟩ := h.split
    rw [hsplit, Layout.addLines_append, bind_eq_ok_iff] at hok
    obtain ⟨layout', hbefore, hrest⟩ := hok
    rw [Layout.addLines, (Layout.addLine_eq_error_iff hbefore).2 hproblem] at hrest
    cases hrest
  · intro hnone
    cases hlines : Layout.empty.addLines 1 texts with
    | ok layout => exact ⟨layout, rfl⟩
    | error e =>
      obtain ⟨before, text, after, layout', rfl, hbefore, -, herror⟩ :=
        Layout.addLines_eq_error_iff.1 hlines
      have hproblem := (Layout.addLine_eq_error_iff hbefore).1 herror
      exact absurd (problemAt_of_lineProblem hproblem) (hnone _ _)

/-- **The first line with a problem is reported**, and that problem. -/
theorem addLines_eq_error_iff_problemAt {e : Error} :
    Layout.empty.addLines 1 texts = .error e ↔
      ∃ k, e.line = k + 1 ∧ FirstAt (ProblemAt texts) k e.problem := by
  constructor
  · intro h
    obtain ⟨before, text, after, layout', rfl, hbefore, hline, herror⟩ :=
      Layout.addLines_eq_error_iff.1 h
    refine ⟨before.length, hline.trans (Nat.add_comm _ _),
      problemAt_of_lineProblem ((Layout.addLine_eq_error_iff hbefore).1 herror), ?_⟩
    intro j hj problem hproblem
    have hfront := problemAt_take_iff.2 ⟨hj, hproblem⟩
    rw [List.take_left] at hfront
    exact exists_addLines_eq_ok_iff.1 ⟨layout', hbefore⟩ j problem hfront
  · rintro ⟨k, hline, hproblem, hfirst⟩
    obtain ⟨text, hsplit, hlength, hbad⟩ := hproblem.split
    obtain ⟨layout, hlayout⟩ : ∃ layout, Layout.empty.addLines 1 (texts.take k) = .ok layout := by
      apply exists_addLines_eq_ok_iff.2
      intro j problem hj
      obtain ⟨hlt, hj⟩ := problemAt_take_iff.1 hj
      exact hfirst j hlt problem hj
    refine Layout.addLines_eq_error_iff.2 ⟨texts.take k, text, _, layout, hsplit, hlayout, ?_, ?_⟩
    · rw [hlength, hline, Nat.add_comm]
    · exact (Layout.addLine_eq_error_iff hlayout).2 hbad

end

/-! ### Problems of operands -/

/-- The instruction of a line has a problem with its operand; the source has been laid out. -/
def OperandProblemAt (source : String) (k : Nat) (problem : Problem) : Prop :=
  ∃ layout, Layout.ofSource source.toList = .ok layout ∧
    ∃ p ∈ layout.placed, p.line = k + 1 ∧ OperandProblem layout p problem

section

variable {source : String} {layout : Layout}
  (hlayout : Layout.ofSource source.toList = .ok layout)

include hlayout

/-- The instructions of a layout are in the order of their lines. -/
theorem pairwise_line_placed : layout.placed.toList.Pairwise (·.line < ·.line) := by
  obtain ⟨rs, -, -, rfl⟩ := Layout.ofSource_eq_ok_iff.1 hlayout
  rw [Layout.toList_placed_ofReadings]
  exact pairwise_placements 1 0 rs

theorem exists_line_of_mem_placed {p : Placed} (hp : p ∈ layout.placed) :
    ∃ k, p.line = k + 1 := by
  obtain ⟨rs, -, -, rfl⟩ := Layout.ofSource_eq_ok_iff.1 hlayout
  have hline := (line_of_mem_placements (Layout.mem_placed_ofReadings.1 hp)).1
  exact ⟨p.line - 1, by omega⟩

theorem operandProblemAt_iff {k : Nat} {problem : Problem} :
    OperandProblemAt source k problem ↔
      ∃ p ∈ layout.placed, p.line = k + 1 ∧ OperandProblem layout p problem := by
  constructor
  · rintro ⟨layout', hlayout', h⟩
    cases hlayout.symm.trans hlayout'
    exact h
  · intro h
    exact ⟨layout, hlayout, h⟩

/-- **The first line with a problem of its operand is reported**, and that problem. -/
theorem mapM_instruction_eq_error_iff {e : Error} :
    layout.placed.toList.mapM (·.instruction layout) = .error e ↔
      ∃ k, e.line = k + 1 ∧ FirstAt (OperandProblemAt source) k e.problem := by
  rw [mapM_eq_error_iff]
  have hsorted := pairwise_line_placed hlayout
  constructor
  · rintro ⟨before, p, after, hsplit, hbefore, he⟩
    have hp : p ∈ layout.placed := Array.mem_toList_iff.1 (by simp [hsplit])
    obtain ⟨hline, hproblem⟩ := Placed.instruction_eq_error_iff.1 he
    obtain ⟨k, hk⟩ := exists_line_of_mem_placed hlayout hp
    refine ⟨k, hline.trans hk, (operandProblemAt_iff hlayout).2 ⟨p, hp, hk, hproblem⟩, ?_⟩
    intro j hj problem hfront
    obtain ⟨q, hq, hqline, hother⟩ := (operandProblemAt_iff hlayout).1 hfront
    -- The instructions behind have greater numbers, and those in front are read.
    rw [hsplit] at hsorted
    rw [← Array.mem_toList_iff, hsplit] at hq
    rcases List.mem_append.1 hq with hq | hq
    · obtain ⟨i, hi⟩ := hbefore q hq
      cases hi.symm.trans hother.instruction
    · have hle : p.line ≤ q.line := by
        rcases List.mem_cons.1 hq with rfl | hq
        · exact Nat.le_refl _
        · exact Nat.le_of_lt ((List.pairwise_cons.1 (List.pairwise_append.1 hsorted).2.1).1 q hq)
      omega
  · rintro ⟨k, hline, hhere, hfront⟩
    obtain ⟨p, hp, hk, hproblem⟩ := (operandProblemAt_iff hlayout).1 hhere
    obtain ⟨before, after, hsplit⟩ := List.append_of_mem (Array.mem_toList_iff.2 hp)
    refine ⟨before, p, after, hsplit, ?_, ?_⟩
    · intro q hq
      have hmem : q ∈ layout.placed := Array.mem_toList_iff.1 (by simp [hsplit, hq])
      obtain ⟨j, hj⟩ := exists_line_of_mem_placed hlayout hmem
      rw [hsplit] at hsorted
      have hlt : q.line < p.line := (List.pairwise_append.1 hsorted).2.2 q hq p (.head _)
      rcases q.instruction_cases layout with hok | ⟨problem, hother⟩
      · exact hok
      · have hbad := (operandProblemAt_iff hlayout).2 ⟨q, hmem, hj, hother⟩
        exact absurd hbad (hfront j (by omega) problem)
    · exact Placed.instruction_eq_error_iff.2 ⟨hline.trans hk.symm, hproblem⟩

end

/-! ### Both passes -/

/-- A source is rejected by the first pass, or by the second one for what the first has laid out. -/
theorem assemble_eq_error_iff_passes {source : String} {e : Error} :
    assemble source = .error e ↔
      Layout.ofSource source.toList = .error e ∨
        ∃ layout, Layout.ofSource source.toList = .ok layout ∧
          layout.placed.toList.mapM (·.instruction layout) = .error e := by
  have hassemble : assemble source = .error e ↔ instructions source = .error e := by
    unfold assemble
    cases instructions source <;> simp [Except.map]
  rw [hassemble, instructions, bind_eq_error_iff]

/-- **What is reported of a source** is the first problem of a line, and only when no line has one
the first problem of an operand. -/
theorem assemble_eq_error_iff {source : String} {e : Error} :
    assemble source = .error e ↔
      ∃ k, e.line = k + 1 ∧
        (FirstAt (ProblemAt (lines source.toList)) k e.problem ∨
          (∀ j problem, ¬ ProblemAt (lines source.toList) j problem) ∧
            FirstAt (OperandProblemAt source) k e.problem) := by
  rw [assemble_eq_error_iff_passes]
  constructor
  · rintro (hlines | ⟨layout, hlayout, hoperands⟩)
    · obtain ⟨k, hline, hfirst⟩ := addLines_eq_error_iff_problemAt.1 hlines
      exact ⟨k, hline, .inl hfirst⟩
    · obtain ⟨k, hline, hfirst⟩ := (mapM_instruction_eq_error_iff hlayout).1 hoperands
      have hnone := exists_addLines_eq_ok_iff.1 ⟨layout, hlayout⟩
      exact ⟨k, hline, .inr ⟨hnone, hfirst⟩⟩
  · rintro ⟨k, hline, hfirst | ⟨-, hfirst⟩⟩
    · exact .inl (addLines_eq_error_iff_problemAt.2 ⟨k, hline, hfirst⟩)
    · obtain ⟨layout, hlayout, -⟩ := hfirst.here
      have hoperands := (mapM_instruction_eq_error_iff hlayout).2 ⟨k, hline, hfirst⟩
      exact .inr ⟨layout, hlayout, hoperands⟩

/-- **What assembles** is a source in which no line and no operand has a problem. -/
theorem exists_assemble_eq_ok_iff {source : String} :
    (∃ code, assemble source = .ok code) ↔
      (∀ k problem, ¬ ProblemAt (lines source.toList) k problem) ∧
        ∀ k problem, ¬ OperandProblemAt source k problem := by
  constructor
  · rintro ⟨code, hcode⟩
    obtain ⟨rs, is, hrs, hnodup, his, -⟩ := assemble_eq_ok_iff.1 hcode
    have hlayout := Layout.ofSource_eq_ok_iff.2 ⟨rs, hrs, hnodup, rfl⟩
    refine ⟨exists_addLines_eq_ok_iff.1 ⟨_, hlayout⟩, ?_⟩
    intro k problem hproblem
    obtain ⟨p, hp, -, hoperand⟩ := (operandProblemAt_iff hlayout).1 hproblem
    obtain ⟨i, -, hi⟩ := exists_mem_of_forall₂ his (Layout.mem_placed_ofReadings.1 hp)
    cases hi.symm.trans hoperand.instruction
  · rintro ⟨hlines, hoperands⟩
    cases h : assemble source with
    | ok code => exact ⟨code, rfl⟩
    | error e =>
      obtain ⟨k, -, hfirst | ⟨-, hfirst⟩⟩ := assemble_eq_error_iff.1 h
      · exact absurd hfirst.here (hlines k _)
      · exact absurd hfirst.here (hoperands k _)

/-! ### The beginning of a source -/

/-- The source with its first lines only. -/
def firstLines (source : String) (n : Nat) : String :=
  String.ofList (unlines ((lines source.toList).take n))

theorem lines_firstLines (source : String) {n : Nat} (hn : 0 < n) :
    lines (firstLines source n).toList = (lines source.toList).take n := by
  rw [firstLines, String.toList_ofList]
  apply lines_unlines
  · intro l hl
    exact newline_not_mem_of_mem_lines (List.mem_of_mem_take hl)
  · rw [ne_eq, List.take_eq_nil_iff]
    rintro (rfl | hnil)
    · exact absurd hn (Nat.lt_irrefl 0)
    · exact lines_ne_nil _ hnil

/-- In the beginning of a source, the lines have the problems that they have in the source. -/
theorem problemAt_of_firstLines {source : String} {n k : Nat} {problem : Problem}
    (h : ProblemAt (lines (firstLines source n).toList) k problem) :
    k < n ∧ ProblemAt (lines source.toList) k problem := by
  cases n with
  | zero =>
    -- Without any lines there is one left, which is empty.
    have hempty : Layout.empty.addLines 1 (lines (firstLines source 0).toList) = .ok .empty := by
      rw [firstLines, List.take_zero, String.toList_ofList]
      rfl
    exact absurd h (exists_addLines_eq_ok_iff.1 ⟨_, hempty⟩ k problem)
  | succ n =>
    rw [lines_firstLines source (Nat.succ_pos n)] at h
    exact problemAt_take_iff.1 h

/-- **The first problem is reported.** A source assembles exactly when no line has a problem of its
own and no operand has one. Otherwise the first line with a problem of its own is reported, if there
is one; else the first line with a problem of its operand. So what comes behind a line with a
problem of its own does not matter, and what comes in front of the first such line has none. -/
theorem first_problem_is_reported (source : String) :
    ((∃ code, assemble source = .ok code) ↔
        (∀ k problem, ¬ ProblemAt (lines source.toList) k problem) ∧
          ∀ k problem, ¬ OperandProblemAt source k problem) ∧
      (∀ e, assemble source = .error e ↔
        ∃ k, e.line = k + 1 ∧
          (FirstAt (ProblemAt (lines source.toList)) k e.problem ∨
            (∀ j problem, ¬ ProblemAt (lines source.toList) j problem) ∧
              FirstAt (OperandProblemAt source) k e.problem)) ∧
      ∀ k problem, FirstAt (ProblemAt (lines source.toList)) k problem →
        assemble (firstLines source (k + 1)) = .error { line := k + 1, problem } ∧
          ∀ j other, ¬ ProblemAt (lines (firstLines source k).toList) j other := by
  refine ⟨exists_assemble_eq_ok_iff, fun _ => assemble_eq_error_iff, ?_⟩
  rintro k problem ⟨hproblem, hfirst⟩
  constructor
  · refine assemble_eq_error_iff.2 ⟨k, rfl, .inl ⟨?_, ?_⟩⟩
    · rw [lines_firstLines source (Nat.succ_pos k)]
      exact problemAt_take_iff.2 ⟨Nat.lt_succ_self k, hproblem⟩
    · intro j hj other hother
      exact hfirst j hj other (problemAt_of_firstLines hother).2
  · intro j other hother
    obtain ⟨hj, hother⟩ := problemAt_of_firstLines hother
    exact hfirst j hj other hother

example : assemble "bipush 300\nend: ; here\n\nend: nop\njump end" =
    .error { line := 4, problem := .duplicateLabel "end" } := by
  decide +kernel

end StackMachine.Assembly
