import StackMachine.Proofs.Assembly.Grammar

/-!
# Reading a line that is one statement

A mnemonic and, behind a blank, its operand are read as that statement and as nothing else: not as
a label, and not as a listing number. Behind a listing number and a colon they are read the same.
-/

namespace StackMachine.Assembly

open Text

/-! ### Comments -/

/-- A comment begins at a character, given what stands behind it. -/
def BeginsComment (c : Char) (behind : List Char) : Prop :=
  c = ';' ∨ c = '#' ∨ c = '/' ∧ behind.head? = some '/'

instance (c : Char) (behind : List Char) : Decidable (BeginsComment c behind) :=
  inferInstanceAs (Decidable (c = ';' ∨ c = '#' ∨ c = '/' ∧ behind.head? = some '/'))

/-- Of what stands behind a character only a slash counts. -/
theorem BeginsComment.of_head? {c : Char} {cs ds : List Char} (h : BeginsComment c cs)
    (hhead : cs.head? = some '/' → ds.head? = some '/') : BeginsComment c ds :=
  h.imp_right (Or.imp_right (And.imp_right hhead))

/-- A line goes on to the first character at which a comment begins. -/
theorem stripComment_cons_eq (c : Char) (cs : List Char) :
    stripComment (c :: cs) = if BeginsComment c cs then [] else c :: stripComment cs := by
  split
  next hc =>
    rcases hc with rfl | rfl | ⟨rfl, hhead⟩
    · rfl
    · rfl
    · obtain ⟨rest, rfl⟩ := List.head?_eq_some_iff.1 hhead
      rfl
  next hc =>
    rw [stripComment]
    · exact fun h => hc (.inl h)
    · exact fun h => hc (.inr (.inl h))
    · rintro rest rfl rfl
      exact hc (.inr (.inr ⟨rfl, rfl⟩))

/-- A line is what it is without its comment, and the comment. -/
theorem exists_comment (cs : List Char) :
    ∃ comment, cs = stripComment cs ++ comment ∧ stripComment comment = [] := by
  induction cs with
  | nil => exact ⟨[], rfl, rfl⟩
  | cons c cs ih =>
    by_cases hc : BeginsComment c cs
    · have hnil : stripComment (c :: cs) = [] := by rw [stripComment_cons_eq, if_pos hc]
      exact ⟨c :: cs, by rw [hnil, List.nil_append], hnil⟩
    · obtain ⟨comment, hcs, hcomment⟩ := ih
      refine ⟨comment, ?_, hcomment⟩
      rw [stripComment_cons_eq, if_neg hc, List.cons_append, ← hcs]

theorem head?_of_append {front back : List Char} {c : Char} (h : front.head? = some c) :
    (front ++ back).head? = some c := by
  rw [List.head?_append, h]
  rfl

/-- A line without its comment has none. -/
theorem stripComment_stripComment (cs : List Char) :
    stripComment (stripComment cs) = stripComment cs := by
  induction cs with
  | nil => rfl
  | cons c cs ih =>
    rw [stripComment_cons_eq]
    split
    · rfl
    next hc =>
      obtain ⟨comment, hcs, -⟩ := exists_comment cs
      have hnot : ¬ BeginsComment c (stripComment cs) :=
        fun h => hc (h.of_head? fun hhead => hcs ▸ head?_of_append hhead)
      rw [stripComment_cons_eq, if_neg hnot, ih]

/-- The beginning of a line without a comment has none. -/
theorem stripComment_of_append {front back : List Char}
    (h : stripComment (front ++ back) = front ++ back) : stripComment front = front := by
  induction front with
  | nil => rfl
  | cons c front ih =>
    rw [List.cons_append, stripComment_cons_eq] at h
    split at h
    · cases h
    next hc =>
      have hnot : ¬ BeginsComment c front := fun h => hc (h.of_head? head?_of_append)
      rw [stripComment_cons_eq, if_neg hnot, ih (List.cons.inj h).2]

/-- A character at which no comment can begin, whatever stands behind it. -/
def Unmarked (c : Char) : Prop := c ≠ ';' ∧ c ≠ '#' ∧ c ≠ '/'

theorem Unmarked.not_beginsComment {c : Char} (h : Unmarked c) (cs : List Char) :
    ¬ BeginsComment c cs := by
  rintro (hc | hc | ⟨hc, -⟩)
  exacts [h.1 hc, h.2.1 hc, h.2.2 hc]

theorem stripComment_append {word : List Char} (h : ∀ c ∈ word, Unmarked c) (back : List Char) :
    stripComment (word ++ back) = word ++ stripComment back := by
  induction word with
  | nil => rfl
  | cons c word ih =>
    obtain ⟨hc, hword⟩ := List.forall_mem_cons.1 h
    rw [List.cons_append, stripComment_cons_eq, if_neg (hc.not_beginsComment _), ih hword,
      List.cons_append]

/-- A line in which no comment can begin has none. -/
theorem stripComment_of_forall {cs : List Char} (h : ∀ c ∈ cs, Unmarked c) :
    stripComment cs = cs := by
  have happend := stripComment_append h []
  rwa [stripComment, List.append_nil] at happend

/-- What stands behind a text counts only if there is no comment in the text, and then it is
stripped as if the line began there, unless the text and what stands behind it make two slashes. -/
theorem stripComment_append_eq {front back : List Char}
    (hslash : back.head? = some '/' → front.getLast? ≠ some '/') :
    stripComment (front ++ back) =
      if stripComment front = front then front ++ stripComment back else stripComment front := by
  induction front with
  | nil => rfl
  | cons c front ih =>
    have hfront : back.head? = some '/' → front.getLast? ≠ some '/' := by
      intro hhead hlast
      exact hslash hhead (by rw [List.getLast?_cons, hlast]; rfl)
    have hbegins : BeginsComment c (front ++ back) ↔ BeginsComment c front := by
      cases front with
      | nil =>
        constructor
        · rintro (rfl | rfl | ⟨rfl, hhead⟩)
          · exact .inl rfl
          · exact .inr (.inl rfl)
          · exact absurd rfl (hslash hhead)
        · exact fun h => h.of_head? nofun
      | cons d front => exact Iff.rfl
    rw [List.cons_append, stripComment_cons_eq, stripComment_cons_eq, ih hfront]
    by_cases hc : BeginsComment c front
    · rw [if_pos (hbegins.2 hc), if_pos hc, if_neg (List.cons_ne_nil c front).symm]
    · rw [if_neg (fun h => hc (hbegins.1 h)), if_neg hc]
      simp only [List.cons.injEq, true_and]
      split <;> rfl

/-- Behind a word in which no comment can begin, a line is stripped as if it began there. -/
theorem stripComment_append_word {front word : List Char} (hf : stripComment front = front)
    (hne : word ≠ []) (hw : ∀ c ∈ word, Unmarked c) (back : List Char) :
    stripComment (front ++ (word ++ back)) = front ++ (word ++ stripComment back) := by
  have hslash : (word ++ back).head? = some '/' → front.getLast? ≠ some '/' := by
    intro hhead
    rw [List.head?_append_of_ne_nil _ hne] at hhead
    exact absurd rfl (hw '/' (List.mem_of_mem_head? hhead)).2.2
  rw [stripComment_append_eq hslash, if_pos hf, stripComment_append hw]

/-! ### Numbers -/

/-- No character of a number ends a word, a label or a line, and no comment begins at one. -/
theorem char_of_mem_number {n : Int} {c : Char} (h : c ∈ (toString n).toList) :
    isBlank c = false ∧ Unmarked c ∧ c ≠ ':' ∧ c ≠ '\n' := by
  rcases char_of_mem_toString_int h with hc | rfl
  · refine ⟨isBlank_of_isMnemonicChar (isMnemonicChar_of_isDigit hc), ⟨?_, ?_, ?_⟩, ?_, ?_⟩ <;>
      (rintro rfl; cases hc)
  · exact ⟨by decide, ⟨by decide, by decide, by decide⟩, by decide, by decide⟩

/-- A number can be an operand. -/
theorem isOperand_toString (n : Int) : IsOperand (toString n).toList :=
  ⟨toList_toString_int_ne_nil n, fun _ hc => (char_of_mem_number hc).1⟩

/-! ### One statement -/

namespace Statement

/-- The characters of a statement: its mnemonic and, behind a blank, its operand. -/
def text (s : Statement) : List Char := s.mnemonic.toList ++ s.operand.elim [] (' ' :: ·.toList)

/-- The mnemonic is a word, and the operand is one word that is not taken for a colon. -/
structure Plain (s : Statement) : Prop where
  mnemonic : isWord isMnemonicStart isMnemonicChar s.mnemonic.toList = true
  operand : ∀ o ∈ s.operand, o.toList ≠ [] ∧ (∀ c ∈ o.toList, isBlank c = false) ∧
    ∀ c ∈ o.toList.head?, c ≠ ':'

variable {s : Statement} (h : s.Plain)

include h

theorem Plain.forall_mem : ∀ c ∈ s.mnemonic.toList, isMnemonicChar c = true :=
  IsMnemonic.forall_mem h.mnemonic

theorem Plain.operandText : OperandText s.operand (s.operand.elim [] (' ' :: ·.toList)) := by
  cases ho : s.operand with
  | none => exact .none blanks_nil
  | some o =>
    obtain ⟨hne, hblank, -⟩ := h.operand o ho
    have hspace : Blanks [' '] := by decide
    have htext := OperandText.some (List.cons_ne_nil _ _) hspace ⟨hne, hblank⟩ blanks_nil
    rwa [List.append_nil] at htext

theorem Plain.head_operand {label : Option String} (_ : label = none) :
    ∀ t ∈ some s, ∀ o ∈ t.operand, o.toList.head? ≠ some ':' := by
  rintro _ ⟨⟩ o ho hc
  exact (h.operand o ho).2.2 ':' hc rfl

/-- **A statement is read as itself.** -/
theorem Plain.parse?_text :
    Line.parse? s.text = some { listedAt := none, label := none, statement := some s } :=
  parse?_of_lineText ⟨[], [], s.text, .none, .none,
    .some blanks_nil h.mnemonic h.operandText, rfl⟩ h.head_operand

/-- **A statement is read as itself behind a listing number.** -/
theorem Plain.parse?_listed (n : Nat) :
    Line.parse? (Nat.toDigits 10 n ++ ':' :: ' ' :: s.text) =
      some { listedAt := some (toString n), label := none, statement := some s } := by
  have hdigits : IsDigits (toString n).toList := by
    rw [Nat.toString_eq_ofList_toDigits, String.toList_ofList]
    exact ⟨Nat.toDigits_ne_nil, fun c hc =>
      isDecimalDigit_of_isDigit (Nat.isDigit_of_mem_toDigits (by decide) (by decide) hc)⟩
  have hspace : Blanks [' '] := by decide
  refine parse?_of_lineText ⟨_, [], _, .some blanks_nil hdigits blanks_nil, .none,
    .some hspace h.mnemonic h.operandText, ?_⟩ h.head_operand
  simp [Statement.text]

end Statement

end StackMachine.Assembly
