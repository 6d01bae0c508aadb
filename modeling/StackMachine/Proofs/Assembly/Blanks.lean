import StackMachine.Proofs.Assembly.Ambiguity

/-!
# Blanks around a line

A line is taken apart in the same way whatever blanks stand in front of it and behind it
(`parse?_trim`). In front of it they are dropped by whichever scanner comes first. Behind it they
belong to the statement, or they stand where a statement could: all that can stand in front of them
ends with a colon, with a mnemonic or with an operand, and none of these with a blank.
-/

namespace StackMachine.Assembly

open Text

variable {lead cs trail : List Char}

/-! ### Trimming -/

theorem dropBlanks_blanks_append (hl : Blanks lead) : dropBlanks (lead ++ cs) = dropBlanks cs :=
  List.dropWhile_append_of_pos hl

theorem trim_blanks_append (hl : Blanks lead) : trim (lead ++ cs) = trim cs := by
  rw [trim, trim, dropBlanks_blanks_append hl]

theorem trim_append_blanks (ht : Blanks trail) : trim (cs ++ trail) = trim cs := by
  have hreverse : Blanks trail.reverse := fun c hc => ht c (List.mem_reverse.1 hc)
  by_cases hcs : dropBlanks cs = []
  · have hboth : dropBlanks (cs ++ trail) = [] :=
      dropBlanks_eq_nil_iff.2 (List.forall_mem_append.2 ⟨dropBlanks_eq_nil_iff.1 hcs, ht⟩)
    rw [trim, trim, hcs, hboth]
  · have hboth : dropBlanks (cs ++ trail) = dropBlanks cs ++ trail := by
      rw [dropBlanks, dropBlanks, List.dropWhile_append, if_neg]
      simpa [dropBlanks] using hcs
    rw [trim, trim, hboth, List.reverse_append, dropBlanks_blanks_append hreverse]

/-- A text is what it is when it is trimmed, with blanks in front and behind. -/
theorem exists_blanks_trim (cs : List Char) :
    ∃ lead trail, Blanks lead ∧ Blanks trail ∧ cs = lead ++ (trim cs ++ trail) := by
  obtain ⟨lead, hl, hlead⟩ := exists_blanks_append cs
  obtain ⟨trail, ht, htrail⟩ := exists_blanks_append (dropBlanks cs).reverse
  refine ⟨lead, trail.reverse, hl, fun c hc => ht c (List.mem_reverse.1 hc), ?_⟩
  rw [trim, ← List.reverse_append, ← htrail, List.reverse_reverse]
  exact hlead

/-! ### Blanks behind the parts of a line -/

/-- What does not end with a blank lies in front of the blanks at the end. -/
theorem exists_of_append_eq {front back : List Char} (h : front ++ back = cs ++ trail)
    (hfront : ∀ c ∈ front.getLast?, isBlank c = false) (ht : Blanks trail) :
    ∃ rest, back = rest ++ trail ∧ cs = front ++ rest := by
  rcases List.append_eq_append_iff.1 h with ⟨rest, hcs, hback⟩ | ⟨rest, hf, htrail⟩
  · exact ⟨rest, hback, hcs⟩
  · rcases List.eq_nil_or_concat rest with rfl | ⟨rest, c, rfl⟩
    · exact ⟨[], htrail.symm, by rw [hf, List.append_nil, List.append_nil]⟩
    · have hlast : isBlank c = false := hfront c (by simp [hf])
      have hblank : isBlank c = true := ht c (by simp [htrail])
      cases hlast.symm.trans hblank

theorem Blanks.append {cs ds : List Char} (hc : Blanks cs) (hd : Blanks ds) : Blanks (cs ++ ds) :=
  List.forall_mem_append.2 ⟨hc, hd⟩

theorem Blanks.of_append_left {cs ds : List Char} (h : Blanks (cs ++ ds)) : Blanks cs :=
  (List.forall_mem_append.1 h).1

/-- A word without blanks does not end with one, whatever stands in front of it. -/
theorem isBlank_of_getLast?_append {front word : List Char} (hne : word ≠ [])
    (hw : ∀ c ∈ word, isBlank c = false) : ∀ c ∈ (front ++ word).getLast?, isBlank c = false := by
  intro c hc
  rw [List.getLast?_append_of_ne_nil _ hne] at hc
  exact hw c (List.mem_of_getLast? hc)

theorem OperandText.append_blanks_iff {operand : Option String} (ht : Blanks trail) :
    OperandText operand (cs ++ trail) ↔ OperandText operand cs := by
  constructor
  · intro h
    generalize htext : cs ++ trail = text at h
    cases h with
    | none hg =>
      subst htext
      exact .none hg.of_append_left
    | @some gap trail' operand hne hg ho ht' =>
      rw [← List.append_assoc] at htext
      obtain ⟨rest, rfl, rfl⟩ :=
        exists_of_append_eq htext.symm (isBlank_of_getLast?_append ho.1 ho.2) ht
      rw [List.append_assoc]
      exact .some hne hg ho ht'.of_append_left
  · intro h
    cases h with
    | none hg => exact .none (hg.append ht)
    | some hne hg ho ht' =>
      rw [List.append_assoc, List.append_assoc]
      exact .some hne hg ho (ht'.append ht)

theorem StatementText.append_blanks_iff {s : Option Statement} (ht : Blanks trail) :
    StatementText s (cs ++ trail) ↔ StatementText s cs := by
  constructor
  · intro h
    generalize htext : cs ++ trail = text at h
    cases h with
    | none hl =>
      subst htext
      exact .none hl.of_append_left
    | @some lead behind s hl hm ho =>
      rw [← List.append_assoc] at htext
      have hword : ∀ c ∈ s.mnemonic.toList, isBlank c = false :=
        fun c hc => isBlank_of_isMnemonicChar (hm.forall_mem c hc)
      obtain ⟨rest, rfl, rfl⟩ :=
        exists_of_append_eq htext.symm (isBlank_of_getLast?_append hm.ne_nil hword) ht
      rw [List.append_assoc]
      exact .some hl hm ((OperandText.append_blanks_iff ht).1 ho)
  · intro h
    cases h with
    | none hl => exact .none (hl.append ht)
    | some hl hm ho =>
      rw [List.append_assoc, List.append_assoc]
      exact .some hl hm ((OperandText.append_blanks_iff ht).2 ho)

/-- A tag ends with its colon. -/
theorem TagText.isBlank_of_getLast? {IsTag : List Char → Prop} {name : Option String}
    (h : TagText IsTag name cs) : ∀ c ∈ cs.getLast?, isBlank c = false := by
  intro c hc
  cases h with
  | none => cases hc
  | some =>
    obtain rfl : ':' = c := by simpa using hc
    decide

theorem LineText.append_blanks_iff {line : Line} (ht : Blanks trail) :
    LineText line (cs ++ trail) ↔ LineText line cs := by
  constructor
  · rintro ⟨listing, label, statement, hn, hl, hs, htext⟩
    have htags : ∀ c ∈ (listing ++ label).getLast?, isBlank c = false := by
      intro c hc
      rw [List.getLast?_append, Option.mem_def, Option.or_eq_some_iff] at hc
      rcases hc with hc | ⟨-, hc⟩
      · exact hl.isBlank_of_getLast? c hc
      · exact hn.isBlank_of_getLast? c hc
    rw [← List.append_assoc] at htext
    obtain ⟨rest, rfl, rfl⟩ := exists_of_append_eq htext.symm htags ht
    rw [List.append_assoc]
    exact ⟨listing, label, rest, hn, hl, (StatementText.append_blanks_iff ht).1 hs, rfl⟩
  · rintro ⟨listing, label, statement, hn, hl, hs, rfl⟩
    refine ⟨listing, label, statement ++ trail, hn, hl,
      (StatementText.append_blanks_iff ht).2 hs, ?_⟩
    rw [List.append_assoc, List.append_assoc]

/-! ### Reading -/

theorem parse?_append_blanks (ht : Blanks trail) : Line.parse? (cs ++ trail) = Line.parse? cs := by
  apply Option.ext
  intro line
  simp only [parse?_eq_some_iff_lineText, LineText.append_blanks_iff ht]

theorem parse?_blanks_append (hl : Blanks lead) : Line.parse? (lead ++ cs) = Line.parse? cs := by
  have hlisting : listing? (lead ++ cs) = listing? cs := by
    simp only [listing?, dropBlanks_blanks_append hl]
  have hlabelled : labelled? (lead ++ cs) = labelled? cs := by
    simp only [labelled?, label?, body?, statement?, dropBlanks_blanks_append hl]
  unfold Line.parse?
  rw [hlisting]
  cases listing? cs with
  | none => simp only [hlabelled]
  | some read => rfl

/-- **The blanks around a line do not matter.** -/
theorem parse?_trim (cs : List Char) : Line.parse? (trim cs) = Line.parse? cs := by
  obtain ⟨lead, trail, hl, ht, hcs⟩ := exists_blanks_trim cs
  conv_rhs => rw [hcs, parse?_blanks_append hl, parse?_append_blanks ht]

end StackMachine.Assembly
