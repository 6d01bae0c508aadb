import StackMachine.Proofs.Assembly.Blanks
import StackMachine.Proofs.Assembly.Problems
import StackMachine.Proofs.Assembly.Replacement

/-!
# Comments and blanks that change nothing

Of a line only its core counts: what is left without its comment and without the blanks around it
(`assemble_congr`). Blanks in front of a line or behind it and a comment at its end do not change
the core (`Inert.core_eq`), so a source with such a line in place of another is assembled to the
same code, or rejected with the same error.

A line without a core can stand anywhere. All that it changes are the numbers of the lines behind it
(`assemble_insertLine`).
-/

namespace StackMachine.Assembly

open Text

/-! ### What counts of a line -/

/-- A line without its comment and without the blanks around it. -/
def core (text : List Char) : List Char := trim (stripComment text)

/-- The text begins with one of the marks of a comment. -/
def IsComment : List Char → Prop
  | [] => False
  | c :: behind => BeginsComment c behind

instance : DecidablePred IsComment := fun cs => by
  cases cs <;> unfold IsComment <;> infer_instance

theorem IsComment.append {comment : List Char} (h : IsComment comment) (back : List Char) :
    IsComment (comment ++ back) := by
  cases comment with
  | nil => cases h
  | cons c behind => exact BeginsComment.of_head? h head?_of_append

theorem IsComment.stripComment {comment : List Char} (h : IsComment comment) :
    stripComment comment = [] := by
  cases comment with
  | nil => cases h
  | cons c behind => exact (stripComment_cons_eq c behind).trans (if_pos h)

theorem core_blanks_append {lead : List Char} (hl : Blanks lead) (text : List Char) :
    core (lead ++ text) = core text := by
  rw [core, stripComment_append (fun c hc => unmarked_of_isBlank (hl c hc)),
    trim_blanks_append hl, core]

theorem core_append_blanks {trail : List Char} (ht : Blanks trail) (body : List Char) :
    core (body ++ trail) = core body := by
  have hunmarked : ∀ c ∈ trail, Unmarked c := fun c hc => unmarked_of_isBlank (ht c hc)
  have hslash : trail.head? = some '/' → body.getLast? ≠ some '/' := fun hhead =>
    absurd rfl (hunmarked '/' (List.mem_of_mem_head? hhead)).2.2
  rw [core, stripComment_append_eq hslash, stripComment_of_forall hunmarked, core]
  split
  next h => rw [trim_append_blanks ht, h]
  · rfl

/-- A comment at the end of a line is cut off, whether there is another one in front of it or
not. -/
theorem core_append_comment {body comment : List Char} (hc : IsComment comment)
    (hslash : comment.head? = some '/' → body.getLast? ≠ some '/') (back : List Char) :
    core (body ++ (comment ++ back)) = core body := by
  have hne : comment ≠ [] := by
    rintro rfl
    cases hc
  have hslash' : (comment ++ back).head? = some '/' → body.getLast? ≠ some '/' := by
    rwa [List.head?_append_of_ne_nil _ hne]
  rw [core, stripComment_append_eq hslash', (hc.append back).stripComment, core]
  split
  next h => rw [List.append_nil, h]
  · rfl

/-! ### Only the core counts -/

theorem Layout.listingNumber_congr {text text' : List Char} (h : trim text = trim text')
    (listed : Option String) : listingNumber text listed = listingNumber text' listed := by
  unfold listingNumber
  rw [h]

theorem Layout.addLine_congr {text text' : List Char} (h : trim text = trim text')
    (layout : Layout) (number : Nat) :
    layout.addLine number text = layout.addLine number text' := by
  have hparse : Line.parse? text = Line.parse? text' := by
    rw [← parse?_trim text, ← parse?_trim text', h]
  cases hl : Line.parse? text' with
  | none =>
    rw [hl] at hparse
    unfold addLine
    rw [hparse, hl, h]
  | some line =>
    rw [hl] at hparse
    rw [addLine_of_parse? hparse, addLine_of_parse? hl]
    unfold place
    simp only [listingNumber_congr h]

theorem Layout.addLines_congr {texts texts' : List (List Char)}
    (h : texts.map core = texts'.map core) (layout : Layout) (number : Nat) :
    layout.addLines number texts = layout.addLines number texts' := by
  induction texts generalizing texts' layout number with
  | nil =>
    rw [List.map_nil, eq_comm, List.map_eq_nil_iff] at h
    rw [h]
  | cons text texts ih =>
    cases texts' with
    | nil => cases h
    | cons text' texts' =>
      obtain ⟨htext, htexts⟩ := List.cons.inj h
      rw [addLines, addLines, addLine_congr htext]
      cases layout.addLine number (stripComment text') with
      | error problem => rfl
      | ok layout => exact ih htexts layout (number + 1)

/-- **Of a line only the core counts.** Sources whose lines have the same cores are assembled to the
same code or rejected with the same error. -/
theorem assemble_congr {source source' : String}
    (h : (lines source.toList).map core = (lines source'.toList).map core) :
    assemble source = assemble source' := by
  have hlayout : Layout.ofSource source.toList = Layout.ofSource source'.toList :=
    Layout.addLines_congr h _ _
  rw [assemble, assemble, instructions, instructions, hlayout]

/-! ### Other texts of a line -/

/-- A text of a line, and the same one with something added that changes nothing. What stands at the
end of the line may be the carriage return of a line end, so blanks may stand behind what is added
as well. -/
inductive Inert : List Char → List Char → Prop
  /-- Blanks are added in front of the line. -/
  | front {lead text : List Char} (hl : Blanks lead) : Inert text (lead ++ text)
  /-- Blanks are added at the end. -/
  | behind {body trail back : List Char} (ht : Blanks trail) (hb : Blanks back) :
      Inert (body ++ back) (body ++ (trail ++ back))
  /-- A comment is added at the end, and no slash stands in front of one with two slashes. -/
  | comment {body comment back : List Char} (hc : IsComment comment)
      (hslash : comment.head? = some '/' → body.getLast? ≠ some '/') (hb : Blanks back) :
      Inert (body ++ back) (body ++ (comment ++ back))

theorem Inert.core_eq {text text' : List Char} (h : Inert text text') : core text' = core text := by
  cases h with
  | front hl => exact core_blanks_append hl _
  | behind ht hb => rw [core_append_blanks hb, core_append_blanks (ht.append hb)]
  | comment hc hslash hb => rw [core_append_blanks hb, core_append_comment hc hslash]

theorem assemble_withLine_of_inert {source : String} {k : Nat} {text text' : List Char}
    (htext : (lines source.toList)[k]? = some text) (h : Inert text text') (hnew : '\n' ∉ text') :
    assemble (withLine source (k + 1) text') = assemble source := by
  apply assemble_congr
  obtain ⟨hk, rfl⟩ := List.getElem?_eq_some_iff.1 htext
  rw [lines_withLine hnew, Nat.add_sub_cancel, List.map_set, h.core_eq, ← List.map_set,
    List.set_getElem_self]

/-! ### One more line -/

/-- The source with one more line, behind its first `k` lines. -/
def insertLine (source : String) (k : Nat) (text : List Char) : String :=
  String.ofList (unlines ((lines source.toList).take k ++ text :: (lines source.toList).drop k))

theorem lines_insertLine {source : String} {k : Nat} {text : List Char} (h : '\n' ∉ text) :
    lines (insertLine source k text).toList =
      (lines source.toList).take k ++ text :: (lines source.toList).drop k := by
  rw [insertLine, String.toList_ofList]
  apply lines_unlines
  · intro l hl
    rw [List.mem_append, List.mem_cons] at hl
    rcases hl with hl | rfl | hl
    · exact newline_not_mem_of_mem_lines (List.mem_of_mem_take hl)
    · exact h
    · exact newline_not_mem_of_mem_lines (List.mem_of_mem_drop hl)
  · simp

/-- A blank line, or one that has a comment only. -/
def Idle (text : List Char) : Prop :=
  ∃ lead comment, Blanks lead ∧ (comment = [] ∨ IsComment comment) ∧ text = lead ++ comment

theorem Idle.core_eq_nil {text : List Char} (h : Idle text) : core text = [] := by
  obtain ⟨lead, comment, hl, rfl | hc, rfl⟩ := h
  · rw [core_blanks_append hl]
    rfl
  · rw [core_blanks_append hl, core, hc.stripComment]
    rfl

/-- A line without a core adds nothing to a layout. -/
theorem Layout.addLine_of_idle {text : List Char} (h : Idle text) (layout : Layout) (number : Nat) :
    layout.addLine number (stripComment text) = .ok layout := by
  have hcore : trim (stripComment text) = trim [] := h.core_eq_nil
  rw [addLine_congr hcore]
  rfl

/-- The number of a line when there is one more line behind the first `k` lines. -/
def newNumber (k number : Nat) : Nat := if k < number then number + 1 else number

/-- The error with the new number of its line. -/
def Error.renumber (k : Nat) (e : Error) : Error := { e with line := newNumber k e.line }

/-- The instruction with the new number of its line. -/
def Placed.renumber (k : Nat) (p : Placed) : Placed := { p with line := newNumber k p.line }

/-- The layout with the new numbers of its lines. -/
def Layout.renumber (k : Nat) (layout : Layout) : Layout :=
  { layout with placed := layout.placed.map (Placed.renumber k) }

theorem newNumber_of_lt {k number : Nat} (h : k < number) : newNumber k number = number + 1 :=
  if_pos h

theorem newNumber_of_le {k number : Nat} (h : number ≤ k) : newNumber k number = number :=
  if_neg (Nat.not_lt_of_le h)

namespace Layout

variable {k number : Nat}

theorem define_renumber (layout : Layout) (label : String) :
    (layout.renumber k).define label = (layout.define label).map (renumber k) := by
  have hoffset : (layout.renumber k).offset? label = layout.offset? label := rfl
  unfold define
  rw [hoffset]
  cases layout.offset? label <;> rfl

section

variable (hk : k < number)

include hk

theorem place_renumber (layout : Layout) (text : List Char) (listed : Option String)
    (statement : Statement) :
    (layout.renumber k).place (number + 1) text listed statement =
      (layout.place number text listed statement).map (renumber k) := by
  unfold place
  cases Opcode.ofMnemonic? statement.mnemonic with
  | none => rfl
  | some op =>
    cases listingNumber text listed with
    | error problem => rfl
    | ok listedAt =>
      refine congrArg Except.ok ?_
      simp [renumber, Placed.renumber, newNumber_of_lt hk]

theorem addLine_renumber (layout : Layout) (text : List Char) :
    (layout.renumber k).addLine (number + 1) text =
      (layout.addLine number text).map (renumber k) := by
  cases hl : Line.parse? text with
  | none =>
    unfold addLine
    rw [hl]
    rfl
  | some line =>
    have hdefine : line.label.elim (.ok (layout.renumber k)) (layout.renumber k).define =
        (line.label.elim (.ok layout) layout.define).map (renumber k) := by
      cases line.label with
      | none => rfl
      | some label => exact define_renumber layout label
    rw [addLine_of_parse? hl, addLine_of_parse? hl, hdefine]
    cases line.label.elim (.ok layout) layout.define with
    | error problem => rfl
    | ok layout =>
      cases line.statement with
      | none => rfl
      | some statement => exact place_renumber hk layout text line.listedAt statement

/-- Lines that stand further down by one get the new numbers. -/
theorem addLines_renumber (layout : Layout) (texts : List (List Char)) :
    (layout.renumber k).addLines (number + 1) texts =
      ((layout.addLines number texts).map (renumber k)).mapError (Error.renumber k) := by
  induction texts generalizing layout number with
  | nil => rfl
  | cons text texts ih =>
    rw [addLines, addLines, addLine_renumber hk]
    cases layout.addLine number (stripComment text) with
    | error problem =>
      simp [Except.map, Except.mapError, Error.renumber, newNumber_of_lt hk]
    | ok layout => exact ih (Nat.lt_succ_of_lt hk) layout

end

/-- Lines that stay where they are keep their numbers. -/
theorem renumber_of_addLines {layout : Layout} {texts : List (List Char)}
    (h : empty.addLines 1 texts = .ok layout) (hk : texts.length ≤ k) :
    layout.renumber k = layout := by
  obtain ⟨rs, hrs, -, rfl⟩ := addLines_eq_ok_iff.1 h
  have hsame : ∀ p ∈ (ofReadings rs).placed, p.renumber k = p := by
    intro p hp
    have hline := (line_of_mem_placements (mem_placed_ofReadings.1 hp)).2
    have hlength := hrs.length_eq
    rw [Placed.renumber, newNumber_of_le (by omega)]
  have hplaced : (ofReadings rs).placed.map (Placed.renumber k) = (ofReadings rs).placed := by
    rw [Array.map_congr_left hsame, Array.map_id']
  exact congrArg (fun placed => { ofReadings rs with placed }) hplaced

end Layout

/-- An instruction is read as before under its new number, and rejected under it. -/
theorem Placed.instruction_renumber (k : Nat) (layout : Layout) (p : Placed) :
    (p.renumber k).instruction (layout.renumber k) =
      (p.instruction layout).mapError (Error.renumber k) := by
  have hlabels : (layout.renumber k).labels = layout.labels := rfl
  have hvalue : (p.renumber k).operandValue layout p.opcode.immediate =
      p.operandValue layout p.opcode.immediate := by
    cases p.opcode.immediate <;> rfl
  rw [instruction_congr hlabels, instruction_eq_map, instruction_eq_map]
  change (((p.renumber k).operandValue layout p.opcode.immediate).map _).mapError _ = _
  rw [hvalue]
  cases p.operandValue layout p.opcode.immediate <;> rfl

section

variable {source : String} {k : Nat} {text : List Char}
  (hk : k ≤ (lines source.toList).length) (hidle : Idle text) (hnew : '\n' ∉ text)

include hk hidle hnew

theorem ofSource_insertLine :
    Layout.ofSource (insertLine source k text).toList =
      ((Layout.ofSource source.toList).map (Layout.renumber k)).mapError (Error.renumber k) := by
  have hlength : ((lines source.toList).take k).length = k := List.length_take_of_le hk
  unfold Layout.ofSource
  rw [lines_insertLine hnew]
  conv_rhs => rw [← List.take_append_drop k (lines source.toList)]
  rw [Layout.addLines_append, Layout.addLines_append]
  cases hfront : Layout.empty.addLines 1 ((lines source.toList).take k) with
  | error e =>
    obtain ⟨before, other, after, -, hsplit, -, hline, -⟩ := Layout.addLines_eq_error_iff.1 hfront
    have hle : e.line ≤ k := by
      rw [hsplit, List.length_append, List.length_cons] at hlength
      omega
    refine congrArg Except.error ?_
    rw [Error.renumber, newNumber_of_le hle]
  | ok layout =>
    have hlt : k < 1 + ((lines source.toList).take k).length := by omega
    refine Eq.trans ?_ (Layout.addLines_renumber hlt layout _)
    rw [Layout.renumber_of_addLines hfront (Nat.le_of_eq hlength)]
    show layout.addLines (1 + _) (text :: _) = _
    rw [Layout.addLines, Layout.addLine_of_idle hidle]

theorem instructions_insertLine :
    instructions (insertLine source k text) =
      (instructions source).mapError (Error.renumber k) := by
  rw [instructions, instructions, ofSource_insertLine hk hidle hnew]
  cases Layout.ofSource source.toList with
  | error e => rfl
  | ok layout =>
    have hread : (·.instruction (layout.renumber k)) ∘ Placed.renumber k =
        fun p => (p.instruction layout).mapError (Error.renumber k) :=
      funext (Placed.instruction_renumber k layout)
    show (layout.placed.map (Placed.renumber k)).toList.mapM
      (·.instruction (layout.renumber k)) = _
    rw [Array.toList_map, List.mapM_map, hread]
    exact mapM_mapError _

/-- **One more line that is blank or a comment** changes the numbers of the lines behind it. -/
theorem assemble_insertLine :
    assemble (insertLine source k text) = (assemble source).mapError (Error.renumber k) := by
  rw [assemble, assemble, instructions_insertLine hk hidle hnew]
  cases instructions source <;> rfl

end

/-- **Comments and the blanks around a line change nothing.** A source with blanks added in front of
a line or behind it, or with a comment added at its end, is assembled to the same code, or rejected
with the same error. With one more line that is blank or has a comment only, it is assembled to the
same code, or rejected with the same problem, and then the line of the problem has the next number
if it stands behind the new one. -/
theorem comments_and_blanks_are_inert (source : String) :
    (∀ k text text', (lines source.toList)[k]? = some text → Inert text text' → '\n' ∉ text' →
      assemble (withLine source (k + 1) text') = assemble source) ∧
    ∀ k ≤ (lines source.toList).length, ∀ text, Idle text → '\n' ∉ text →
      (∀ code, assemble source = .ok code → assemble (insertLine source k text) = .ok code) ∧
      ∀ e, assemble source = .error e → assemble (insertLine source k text) =
        .error { e with line := if k < e.line then e.line + 1 else e.line } := by
  refine ⟨?_, ?_⟩
  · intro k text text' htext h hnew
    exact assemble_withLine_of_inert htext h hnew
  · intro k hk text hidle hnew
    rw [assemble_insertLine hk hidle hnew]
    refine ⟨?_, ?_⟩
    · intro code h
      rw [h]
      rfl
    · intro e h
      rw [h]
      rfl

/-- A comment behind a label, and a line with a comment in front of a branch to another label, which
is still the one that is rejected. -/
theorem comments_and_blanks_are_inert_undefined_label :
    let source := "top: nop\ngoto bottom"
    let noted := "top: nop".toList ++ ("// here".toList ++ [])
    assemble (withLine source 1 noted) = .error ⟨2, .undefinedLabel "bottom"⟩ ∧
      assemble (insertLine source 1 (" ".toList ++ "# there".toList)) =
        .error ⟨3, .undefinedLabel "bottom"⟩ := by
  intro source noted
  have herror : assemble source = .error ⟨2, .undefinedLabel "bottom"⟩ := by decide +kernel
  have hline : (lines source.toList)[0]? = some ("top: nop".toList ++ []) := by decide +kernel
  have hinert : Inert ("top: nop".toList ++ []) noted :=
    .comment (by decide +kernel) (by decide +kernel) blanks_nil
  have hidle : Idle (" ".toList ++ "# there".toList) :=
    ⟨_, _, by decide +kernel, .inr (by decide +kernel), rfl⟩
  obtain ⟨hwith, hinsert⟩ := comments_and_blanks_are_inert source
  have hsame := hwith 0 _ _ hline hinert (by decide +kernel)
  have hnext := (hinsert 1 (by decide +kernel) _ hidle (by decide +kernel)).2 _ herror
  exact ⟨hsame.trans herror, hnext⟩

end StackMachine.Assembly
