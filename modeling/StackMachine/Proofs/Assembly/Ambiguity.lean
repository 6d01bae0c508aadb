import StackMachine.Proofs.Assembly.Grammar

/-!
# Lines with two readings

Reading a line finds the one way to take it apart, or there are two (`LineText.eq_or_rival`): a word
and a colon behind it are a label, or the word is the mnemonic of an operand that begins with the
colon. Then the line is read with the label, and with the mnemonic only where the rest of the line
does not fit behind a label (`parse?_eq_some_iff_lineText`). So a text is read exactly when it is a
line at all.
-/

namespace StackMachine.Assembly

open Text

/-! ### Behind the listing number -/

/-- What stands behind the listing number of a line: a label, if there is one, and a statement. -/
def LabelledText (label : Option String) (s : Option Statement) (cs : List Char) : Prop :=
  ∃ front text, TagText IsLabel label front ∧ StatementText s text ∧ cs = front ++ text

theorem labelledText_none_iff {s : Option Statement} {cs : List Char} :
    LabelledText none s cs ↔ StatementText s cs := by
  constructor
  · rintro ⟨front, text, hl, hs, rfl⟩
    cases hl
    exact hs
  · intro hs
    exact ⟨[], cs, .none, hs, rfl⟩

theorem labelledText_some_iff {label : String} {s : Option Statement} {cs : List Char} :
    LabelledText (some label) s cs ↔
      ∃ text, label? cs = some (label, text) ∧ StatementText s text := by
  simp only [label?_eq_some_iff]
  constructor
  · rintro ⟨front, text, hl, hs, rfl⟩
    exact ⟨text, ⟨front, hl, rfl⟩, hs⟩
  · rintro ⟨text, ⟨front, hl, rfl⟩, hs⟩
    exact ⟨front, text, hl, hs, rfl⟩

/-- Whether there is a listing number shows, and what stands behind it. -/
theorem LineText.listing? {line : Line} {cs : List Char} (h : LineText line cs) :
    ∃ behind, LabelledText line.label line.statement behind ∧
      Assembly.listing? cs = line.listedAt.map (·, behind) ∧
      (line.listedAt = none → behind = cs) := by
  obtain ⟨listedAt, label, s⟩ := line
  obtain ⟨listing, front, text, hn, hl, hs, rfl⟩ := h
  refine ⟨front ++ text, ⟨front, text, hl, hs, rfl⟩, ?_⟩
  cases listedAt with
  | none =>
    cases hn
    have hnone : Assembly.listing? (front ++ text) = none := listing?_of_labelText hl hs
    exact ⟨hnone, fun _ => rfl⟩
  | some digits => exact ⟨listing?_eq_some_iff.2 ⟨listing, hn, rfl⟩, nofun⟩

/-! ### Two readings -/

/-- A line can be read with a label or, as the other reading, with the label for its mnemonic: then
the operand begins with the colon. -/
structure Rival (line other : Line) : Prop where
  listedAt : other.listedAt = line.listedAt
  label : other.label = none
  statement : ∃ s operand, other.statement = some s ∧ line.label = some s.mnemonic ∧
    s.operand = some operand ∧ operand.toList.head? = some ':'

/-- Where a label can be read as well, it is the mnemonic, and the operand begins with a colon. -/
theorem mnemonic_of_label? {cs rest : List Char} {s : Statement} {label : String}
    (hs : StatementText (some s) cs) (hl : label? cs = some (label, rest)) :
    label = s.mnemonic ∧ ∃ operand, s.operand = some operand ∧
      operand.toList.head? = some ':' := by
  constructor
  · rw [label?_eq_tag?] at hl
    obtain ⟨-, hname, -⟩ := tag?_eq_some_iff_takeWhile.1 hl
    cases hs with
    | @some lead behind _ hlead hm ho =>
      have hword : ∀ c ∈ s.mnemonic.toList, isLabelChar c = true :=
        fun c hc => isLabelChar_of_isMnemonicChar (hm.forall_mem c hc)
      have hend : ∀ c ∈ behind.head?, isLabelChar c = false :=
        fun c hc => not_of_isBlank (fun _ => isBlank_of_isLabelChar) (ho.head c hc)
      rw [dropBlanks_word (fun _ => isBlank_of_isLabelChar) hlead hm.ne_nil hword,
        takeWhile_append_of_head? hword hend] at hname
      exact String.toList_injective hname.symm
  · by_contra hnot
    push Not at hnot
    have hnone : label? cs = none := by
      apply label?_of_statementText hs
      rintro _ ⟨⟩ operand ho
      exact hnot operand ho
    cases hl.symm.trans hnone

/-- Behind the listing number, a label and the statement behind it are read in one way. -/
theorem LabelledText.unique_of_label {label label' : String} {s s' : Option Statement}
    {cs : List Char} (h : LabelledText (some label) s cs) (h' : LabelledText (some label') s' cs) :
    label = label' ∧ s = s' := by
  obtain ⟨text, hl, hs⟩ := labelledText_some_iff.1 h
  obtain ⟨text', hl', hs'⟩ := labelledText_some_iff.1 h'
  cases hl.symm.trans hl'
  cases (body?_eq_some_iff.2 hs).symm.trans (body?_eq_some_iff.2 hs')
  exact ⟨rfl, rfl⟩

/-- So is a statement without a label. -/
theorem LabelledText.unique_of_none {s s' : Option Statement} {cs : List Char}
    (h : LabelledText none s cs) (h' : LabelledText none s' cs) : s = s' := by
  have hs := body?_eq_some_iff.2 (labelledText_none_iff.1 h)
  have hs' := body?_eq_some_iff.2 (labelledText_none_iff.1 h')
  exact Option.some.inj (hs.symm.trans hs')

/-- A label that can also be read as no label is a mnemonic. -/
theorem LabelledText.mnemonic {label : String} {s s' : Option Statement} {cs : List Char}
    (h : LabelledText (some label) s cs) (h' : LabelledText none s' cs) :
    ∃ t operand, s' = some t ∧ some label = some t.mnemonic ∧ t.operand = some operand ∧
      operand.toList.head? = some ':' := by
  obtain ⟨text, hl, -⟩ := labelledText_some_iff.1 h
  have hs := labelledText_none_iff.1 h'
  cases s' with
  | none =>
    have hnone : label? cs = none := label?_of_statementText hs nofun
    cases hl.symm.trans hnone
  | some t =>
    obtain ⟨rfl, operand, ho, hcolon⟩ := mnemonic_of_label? hs hl
    exact ⟨t, operand, rfl, rfl, ho, hcolon⟩

/-- **A text is a line in one way**, or in two that take one word for a label or for a mnemonic. -/
theorem LineText.eq_or_rival {line other : Line} {cs : List Char} (h : LineText line cs)
    (h' : LineText other cs) : line = other ∨ Rival line other ∨ Rival other line := by
  obtain ⟨behind, htext, hread, hsame⟩ := h.listing?
  obtain ⟨behind', htext', hread', hsame'⟩ := h'.listing?
  obtain ⟨listedAt, label, s⟩ := line
  obtain ⟨listedAt', label', s'⟩ := other
  dsimp only at *
  have hlisting := hread.symm.trans hread'
  obtain ⟨rfl, rfl⟩ : listedAt = listedAt' ∧ behind = behind' := by
    cases listedAt <;> cases listedAt' <;> cases hlisting
    · exact ⟨rfl, (hsame rfl).trans (hsame' rfl).symm⟩
    · exact ⟨rfl, rfl⟩
  cases label with
  | none =>
    cases label' with
    | none => exact .inl (by rw [htext.unique_of_none htext'])
    | some label' => exact .inr (.inr ⟨rfl, rfl, htext'.mnemonic htext⟩)
  | some label =>
    cases label' with
    | none => exact .inr (.inl ⟨rfl, rfl, htext.mnemonic htext'⟩)
    | some label' =>
      obtain ⟨rfl, rfl⟩ := htext.unique_of_label htext'
      exact .inl rfl

/-! ### What is read -/

/-- Whatever can be taken apart is read in some way. -/
theorem LineText.exists_parse? {line : Line} {cs : List Char} (h : LineText line cs) :
    ∃ read, Line.parse? cs = some read := by
  obtain ⟨behind, htext, hlisting, hsame⟩ := h.listing?
  have hread : ∃ read, labelled? behind = some read := by
    cases hlabel : line.label with
    | none =>
      rw [hlabel, labelledText_none_iff] at htext
      simp [labelled?, body?_eq_some_iff.2 htext, Option.orElse_eq_or]
    | some label =>
      rw [hlabel] at htext
      obtain ⟨front, text, hl, hs, rfl⟩ := htext
      exact ⟨_, labelled?_of_label hl hs⟩
  obtain ⟨⟨label, s⟩, hread⟩ := hread
  unfold Line.parse?
  rw [hlisting]
  cases hn : line.listedAt with
  | none =>
    cases hsame hn
    exact ⟨_, by simp [hread]; rfl⟩
  | some digits =>
    exact ⟨_, by simp [hread]; rfl⟩

/-- **What a text is read as**: the line that it is, and with a label if that is one of the ways. -/
theorem parse?_eq_some_iff_lineText {line : Line} {cs : List Char} :
    Line.parse? cs = some line ↔
      LineText line cs ∧ (line.label = none → ∀ other, LineText other cs → other.label = none) := by
  constructor
  · intro h
    refine ⟨lineText_of_parse? h, ?_⟩
    intro hnone other ho
    cases hlabel : other.label with
    | none => rfl
    | some label =>
      -- The label would have been read.
      have hother : Line.parse? cs = some other :=
        parse?_of_lineText ho fun hnone' => absurd (hlabel.symm.trans hnone') nofun
      cases h.symm.trans hother
      exact absurd (hlabel.symm.trans hnone) nofun
  · rintro ⟨htext, hfirst⟩
    obtain ⟨read, hread⟩ := htext.exists_parse?
    have hreadText := lineText_of_parse? hread
    rcases htext.eq_or_rival hreadText with rfl | hrival | hrival
    · exact hread
    · have hcolon : line.label = none → ∀ s ∈ line.statement, ∀ o ∈ s.operand,
          o.toList.head? ≠ some ':' := by
        intro hnone
        obtain ⟨s, -, -, hlabel, -⟩ := hrival.statement
        cases hlabel.symm.trans hnone
      exact parse?_of_lineText htext hcolon
    · obtain ⟨s, -, -, hlabel, -⟩ := hrival.statement
      cases hlabel.symm.trans (hfirst hrival.label read hreadText)

/-- **A line is taken apart in the one intended way.** A text is read exactly when it is a line.
What is read are parts that the text has, and without a label only if it has no parts with one.
There are no two ways to find such parts, but for a word and a colon that are a label, or a mnemonic
and the beginning of its operand. -/
theorem parts_of_line (cs : List Char) :
    ((∃ line, Line.parse? cs = some line) ↔ ∃ line, LineText line cs) ∧
      (∀ line, Line.parse? cs = some line ↔ LineText line cs ∧
        (line.label = none → ∀ other, LineText other cs → other.label = none)) ∧
      ∀ line other, LineText line cs → LineText other cs →
        line = other ∨ Rival line other ∨ Rival other line := by
  refine ⟨?_, fun _ => parse?_eq_some_iff_lineText, fun _ _ => LineText.eq_or_rival⟩
  constructor
  · rintro ⟨line, h⟩
    exact ⟨line, lineText_of_parse? h⟩
  · rintro ⟨line, h⟩
    exact h.exists_parse?

example : Line.parse? "goto :x".toList =
    some { listedAt := none, label := some "goto", statement := some ⟨"x", none⟩ } := by
  decide +kernel

example : Line.parse? "goto :x:y".toList =
    some { listedAt := none, label := none, statement := some ⟨"goto", some ":x:y"⟩ } := by
  decide +kernel

end StackMachine.Assembly
