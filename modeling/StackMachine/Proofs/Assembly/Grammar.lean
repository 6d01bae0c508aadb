import StackMachine.Assembly.Line
import StackMachine.Proofs.Text
import Mathlib.Data.List.Basic
import Mathlib.Data.List.TakeWhile

/-!
# The grammar of a line

A line has three parts, each of which may be missing: a listing number and a colon, a label and a
colon, and a statement. `LineText` says which texts are such lines, and of which parts. What is
read from a text always is a line of that text (`lineText_of_parse?`), and a line is read from each
of its texts (`parse?_of_lineText`), unless it has no label and its operand begins with a colon:
then the mnemonic may be taken for a label.

Each scanner takes the longest word that it can. That loses nothing, for no word can go on with
the blank or the colon that must follow it.
-/

namespace StackMachine.Assembly

open Text

/-! ### Characters -/

theorem isLabelChar_of_start {c : Char} (h : isLabelStart c = true) : isLabelChar c = true := by
  simp [isLabelChar, h]

theorem isMnemonicChar_of_start {c : Char} (h : isMnemonicStart c = true) :
    isMnemonicChar c = true := by
  simp [isMnemonicChar, h]

theorem isLabelStart_of_isMnemonicStart {c : Char} (h : isMnemonicStart c = true) :
    isLabelStart c = true := by
  simp only [isMnemonicStart] at h
  simp [isLabelStart, h]

theorem isLabelChar_of_isMnemonicChar {c : Char} (h : isMnemonicChar c = true) :
    isLabelChar c = true := by
  simp only [isMnemonicChar, Bool.or_eq_true, beq_iff_eq] at h
  rcases h with (h | h) | rfl
  · exact isLabelChar_of_start (isLabelStart_of_isMnemonicStart h)
  · simp [isLabelChar, h]
  · decide

theorem lt_of_isLabelChar {c : Char} (h : isLabelChar c = true) : c.toNat < 128 := by
  simp only [isLabelChar, isLabelStart, Bool.or_eq_true, Bool.and_eq_true, decide_eq_true_eq,
    beq_iff_eq, Char.le_def, UInt32.le_iff_toNat_le] at h
  rcases h with ((⟨-, h⟩ | ⟨-, h⟩) | rfl) | ⟨-, h⟩
  · exact Nat.lt_of_le_of_lt h (by decide)
  · exact Nat.lt_of_le_of_lt h (by decide)
  · decide
  · exact Nat.lt_of_le_of_lt h (by decide)

theorem isMnemonicChar_of_isDigit {c : Char} (h : c.isDigit = true) : isMnemonicChar c = true :=
  forall_ascii (P := fun c => c.isDigit = true → isMnemonicChar c = true) (by decide +kernel)
    (Nat.lt_of_le_of_lt (isDigit_iff.1 h).2 (by decide)) h

theorem isLabelStart_of_isDigit {c : Char} (h : c.isDigit = true) : isLabelStart c = false :=
  forall_ascii (P := fun c => c.isDigit = true → isLabelStart c = false) (by decide +kernel)
    (Nat.lt_of_le_of_lt (isDigit_iff.1 h).2 (by decide)) h

theorem isBlank_of_isLabelChar {c : Char} (h : isLabelChar c = true) : isBlank c = false :=
  forall_ascii (P := fun c => isLabelChar c = true → isBlank c = false) (by decide +kernel)
    (lt_of_isLabelChar h) h

theorem isBlank_of_isMnemonicChar {c : Char} (h : isMnemonicChar c = true) : isBlank c = false :=
  isBlank_of_isLabelChar (isLabelChar_of_isMnemonicChar h)

theorem isDecimalDigit_of_isLabelStart {c : Char} (h : isLabelStart c = true) :
    isDecimalDigit c = false :=
  forall_ascii (P := fun c => isLabelStart c = true → isDecimalDigit c = false)
    (by decide +kernel) (lt_of_isLabelChar (isLabelChar_of_start h)) h

/-- A blank is no decimal digit of any script: no run of digits has one of the blanks in it. -/
theorem isBlank_of_isDecimalDigit {c : Char} (h : isDecimalDigit c = true) :
    isBlank c = false := by
  have key : ∀ z ∈ digitZeros, z + 10 ≤ 0x85 ∧ 32 < z ∨ 0xa0 < z ∧ z + 10 ≤ 0x1680 ∨
      0x1680 < z ∧ z + 10 ≤ 0x2000 ∨ 0x3000 < z := by decide +kernel
  obtain ⟨z, hz, hc⟩ := List.any_eq_true.1 h
  simp only [Bool.and_eq_true, decide_eq_true_eq] at hc
  have hspace : c ≠ ' ' := by
    rintro rfl
    have : (' ').toNat = 32 := rfl
    have := key z hz
    omega
  have := key z hz
  simp only [isBlank, Bool.or_eq_false_iff, Bool.and_eq_false_iff, beq_eq_false_iff_ne,
    decide_eq_false_iff_not]
  refine ⟨⟨⟨⟨⟨⟨⟨⟨⟨⟨hspace, ?_⟩, ?_⟩, ?_⟩, ?_⟩, ?_⟩, ?_⟩, ?_⟩, ?_⟩, ?_⟩, ?_⟩ <;> omega

/-! ### Blanks -/

/-- There are only blanks in the text. -/
def Blanks (cs : List Char) : Prop := ∀ c ∈ cs, isBlank c = true

instance : DecidablePred Blanks := fun cs =>
  decidable_of_iff (cs.all isBlank = true) List.all_eq_true

theorem blanks_nil : Blanks [] := List.forall_mem_nil _

theorem dropBlanks_eq_nil_iff {cs : List Char} : dropBlanks cs = [] ↔ Blanks cs :=
  List.dropWhile_eq_nil_iff

/-- The blanks in front of a text can be told apart from the text. -/
theorem exists_blanks_append (cs : List Char) : ∃ lead, Blanks lead ∧ cs = lead ++ dropBlanks cs :=
  ⟨cs.takeWhile isBlank, fun _ => List.mem_takeWhile_imp, List.takeWhile_append_dropWhile.symm⟩

theorem dropBlanks_append {lead cs : List Char} (hl : Blanks lead)
    (hcs : ∀ c ∈ cs.head?, isBlank c = false) : dropBlanks (lead ++ cs) = cs :=
  dropWhile_append_of_head? hl hcs

section Word

variable {p : Char → Bool} (hblank : ∀ c, p c = true → isBlank c = false)

include hblank

theorem not_of_isBlank {c : Char} (h : isBlank c = true) : p c = false := by
  by_contra hp
  rw [hblank c (Bool.not_eq_false _ ▸ hp)] at h
  cases h

/-- A word is where it begins once the blanks in front of it are dropped. -/
theorem dropBlanks_word {lead word rest : List Char} (hl : Blanks lead) (hne : word ≠ [])
    (hw : ∀ c ∈ word, p c = true) : dropBlanks (lead ++ (word ++ rest)) = word ++ rest := by
  apply dropBlanks_append hl
  intro c hc
  rw [List.head?_append_of_ne_nil _ hne] at hc
  exact hblank c (hw c (List.mem_of_mem_head? hc))

/-- A word does not go on with blanks, and not with what ends it behind them. -/
theorem head?_blanks_append {gap rest : List Char} (hg : Blanks gap)
    (hrest : ∀ c ∈ rest.head?, p c = false) : ∀ c ∈ (gap ++ rest).head?, p c = false := by
  cases gap with
  | nil => exact hrest
  | cons b gap =>
    rintro c ⟨⟩
    exact not_of_isBlank hblank (hg b (.head _))

end Word

/-! ### Texts of the parts -/

/-- The digits of a listing number. -/
def IsDigits (cs : List Char) : Prop := cs ≠ [] ∧ ∀ c ∈ cs, isDecimalDigit c = true

/-- The name of a label. -/
def IsLabel (cs : List Char) : Prop := isWord isLabelStart isLabelChar cs = true

/-- The name of an instruction. -/
def IsMnemonic (cs : List Char) : Prop := isWord isMnemonicStart isMnemonicChar cs = true

/-- An operand, which may have any characters but blanks. -/
def IsOperand (cs : List Char) : Prop := cs ≠ [] ∧ ∀ c ∈ cs, isBlank c = false

instance : DecidablePred IsDigits := fun cs =>
  decidable_of_iff (cs ≠ [] ∧ cs.all isDecimalDigit = true) (and_congr_right' List.all_eq_true)

instance : DecidablePred IsLabel := fun cs =>
  inferInstanceAs (Decidable (isWord isLabelStart isLabelChar cs = true))

/-- Nothing, or a word of some kind and a colon, with blanks in front of both. -/
inductive TagText (IsTag : List Char → Prop) : Option String → List Char → Prop
  | none : TagText IsTag none []
  | some {lead gap : List Char} {name : String} (hl : Blanks lead) (hn : IsTag name.toList)
      (hg : Blanks gap) : TagText IsTag (some name) (lead ++ (name.toList ++ (gap ++ [':'])))

/-- Blanks, among which there may be an operand that is not the first of all characters. -/
inductive OperandText : Option String → List Char → Prop
  | none {gap : List Char} (hg : Blanks gap) : OperandText none gap
  | some {gap trail : List Char} {operand : String} (hne : gap ≠ []) (hg : Blanks gap)
      (ho : IsOperand operand.toList) (ht : Blanks trail) :
      OperandText (some operand) (gap ++ (operand.toList ++ trail))

/-- Blanks, behind which there may be a mnemonic and what belongs to it. -/
inductive StatementText : Option Statement → List Char → Prop
  | none {lead : List Char} (hl : Blanks lead) : StatementText none lead
  | some {lead behind : List Char} {s : Statement} (hl : Blanks lead)
      (hm : IsMnemonic s.mnemonic.toList) (ho : OperandText s.operand behind) :
      StatementText (some s) (lead ++ (s.mnemonic.toList ++ behind))

/-- The text of a line, without a comment. -/
def LineText (line : Line) (cs : List Char) : Prop :=
  ∃ listing label statement, TagText IsDigits line.listedAt listing ∧
    TagText IsLabel line.label label ∧ StatementText line.statement statement ∧
    cs = listing ++ (label ++ statement)

/-! ### Words -/

theorem isWord_iff {start more : Char → Bool} {cs : List Char} :
    isWord start more cs = true ↔
      ∃ c rest, cs = c :: rest ∧ start c = true ∧ ∀ d ∈ rest, more d = true := by
  cases cs <;> simp [isWord]

theorem forall_mem_of_isWord {start more : Char → Bool} (h : ∀ c, start c = true → more c = true)
    {cs : List Char} (hw : isWord start more cs = true) : ∀ c ∈ cs, more c = true := by
  obtain ⟨c, rest, rfl, hc, hrest⟩ := isWord_iff.1 hw
  exact List.forall_mem_cons.2 ⟨h c hc, hrest⟩

theorem IsLabel.forall_mem {cs : List Char} (h : IsLabel cs) : ∀ c ∈ cs, isLabelChar c = true :=
  forall_mem_of_isWord (fun _ => isLabelChar_of_start) h

theorem IsMnemonic.forall_mem {cs : List Char} (h : IsMnemonic cs) :
    ∀ c ∈ cs, isMnemonicChar c = true :=
  forall_mem_of_isWord (fun _ => isMnemonicChar_of_start) h

theorem IsLabel.ne_nil {cs : List Char} (h : IsLabel cs) : cs ≠ [] := by
  rintro rfl
  cases h

theorem IsLabel.head {cs : List Char} (h : IsLabel cs) : ∃ c ∈ cs.head?, isLabelStart c = true := by
  obtain ⟨c, rest, rfl, hc, -⟩ := isWord_iff.1 h
  exact ⟨c, rfl, hc⟩

theorem IsMnemonic.ne_nil {cs : List Char} (h : IsMnemonic cs) : cs ≠ [] := by
  rintro rfl
  cases h

theorem IsMnemonic.head {cs : List Char} (h : IsMnemonic cs) :
    ∃ c ∈ cs.head?, isMnemonicStart c = true := by
  obtain ⟨c, rest, rfl, hc, -⟩ := isWord_iff.1 h
  exact ⟨c, rfl, hc⟩

/-! ### Listing numbers and labels -/

/-- A word of some kind and a colon, and the text behind them: what listing numbers and labels have
in common. -/
def tag? (p : Char → Bool) (IsTag : List Char → Prop) [DecidablePred IsTag] (cs : List Char) :
    Option (String × List Char) :=
  let word := (dropBlanks cs).takeWhile p
  if IsTag word then
    match dropBlanks ((dropBlanks cs).dropWhile p) with
    | ':' :: rest => some (String.ofList word, rest)
    | _ => none
  else none

theorem listing?_eq_tag? (cs : List Char) : listing? cs = tag? isDecimalDigit IsDigits cs := by
  by_cases hnil : (dropBlanks cs).takeWhile isDecimalDigit = []
  · have hdigits : ¬ IsDigits ((dropBlanks cs).takeWhile isDecimalDigit) := fun h => h.1 hnil
    exact (if_pos hnil).trans (if_neg hdigits).symm
  · have hdigits : IsDigits ((dropBlanks cs).takeWhile isDecimalDigit) :=
      ⟨hnil, fun _ => List.mem_takeWhile_imp⟩
    exact (if_neg hnil).trans (if_pos hdigits).symm

theorem label?_eq_tag? (cs : List Char) : label? cs = tag? isLabelChar IsLabel cs := rfl

section Tag

variable {p : Char → Bool} {IsTag : List Char → Prop} [DecidablePred IsTag]

theorem tag?_eq_some_iff_takeWhile {cs rest : List Char} {name : String} :
    tag? p IsTag cs = some (name, rest) ↔
      IsTag name.toList ∧ (dropBlanks cs).takeWhile p = name.toList ∧
        dropBlanks ((dropBlanks cs).dropWhile p) = ':' :: rest := by
  unfold tag?
  constructor
  · intro h
    dsimp only at h
    split at h
    next hw =>
      split at h
      next hr =>
        cases h
        exact ⟨by simpa using hw, by simp, hr⟩
      · cases h
    · cases h
  · rintro ⟨ht, hw, hr⟩
    simp only [hw, hr, if_pos ht, String.ofList_toList]

variable (hblank : ∀ c, p c = true → isBlank c = false) (hcolon : p ':' = false)
  (htag : ∀ word, IsTag word → word ≠ [] ∧ ∀ c ∈ word, p c = true)

include hblank hcolon htag

/-- A word and a colon are read exactly where they stand. -/
theorem tag?_eq_some_iff {cs rest : List Char} {name : String} :
    tag? p IsTag cs = some (name, rest) ↔
      ∃ front, TagText IsTag (some name) front ∧ cs = front ++ rest := by
  rw [tag?_eq_some_iff_takeWhile]
  constructor
  · rintro ⟨ht, hword, hrest⟩
    obtain ⟨lead, hl, hcs⟩ := exists_blanks_append cs
    obtain ⟨gap, hg, hgap⟩ := exists_blanks_append ((dropBlanks cs).dropWhile p)
    have hsplit : dropBlanks cs = name.toList ++ (gap ++ ':' :: rest) := by
      rw [← hrest, ← hgap, ← hword, List.takeWhile_append_dropWhile]
    refine ⟨_, .some hl ht hg, ?_⟩
    rw [hcs, hsplit]
    simp
  · rintro ⟨front, hfront, rfl⟩
    cases hfront with
    | @some lead gap _ hl ht hg =>
      obtain ⟨hne, hword⟩ := htag _ ht
      have hassoc : lead ++ (name.toList ++ (gap ++ [':'])) ++ rest =
          lead ++ (name.toList ++ (gap ++ ':' :: rest)) := by simp
      have hend : ∀ c ∈ (gap ++ ':' :: rest).head?, p c = false :=
        head?_blanks_append hblank hg (by rintro c ⟨⟩; exact hcolon)
      rw [hassoc, dropBlanks_word hblank hl hne hword, takeWhile_append_of_head? hword hend,
        dropWhile_append_of_head? hword hend]
      refine ⟨ht, rfl, dropBlanks_append hg ?_⟩
      rintro c ⟨⟩
      decide

end Tag

/-- A listing number is read exactly where one stands. -/
theorem listing?_eq_some_iff {cs rest : List Char} {digits : String} :
    listing? cs = some (digits, rest) ↔
      ∃ front, TagText IsDigits (some digits) front ∧ cs = front ++ rest := by
  rw [listing?_eq_tag?]
  exact tag?_eq_some_iff (fun _ => isBlank_of_isDecimalDigit) (by decide +kernel)
    fun _ (h : IsDigits _) => h

/-- A label is read exactly where one stands. -/
theorem label?_eq_some_iff {cs rest : List Char} {label : String} :
    label? cs = some (label, rest) ↔
      ∃ front, TagText IsLabel (some label) front ∧ cs = front ++ rest := by
  rw [label?_eq_tag?]
  exact tag?_eq_some_iff (fun _ => isBlank_of_isLabelChar) (by decide)
    fun _ h => ⟨h.ne_nil, h.forall_mem⟩

/-! ### Statements -/

/-- An operand is read exactly where one stands, and none where there are only blanks. -/
theorem operand?_eq_some_iff {cs : List Char} {operand : Option String} :
    operand? cs = some operand ↔ OperandText operand cs := by
  constructor
  · intro h
    cases cs with
    | nil =>
      cases h
      exact .none blanks_nil
    | cons b rest =>
      obtain ⟨gap, hg, hrest⟩ := exists_blanks_append rest
      simp only [operand?] at h
      generalize dropBlanks rest = body at h hrest
      subst hrest
      have hsplit := List.takeWhile_append_dropWhile (p := (!isBlank ·)) (l := body)
      split at h
      next hb =>
        have hgap : Blanks (b :: gap) := List.forall_mem_cons.2 ⟨hb, hg⟩
        split at h
        · cases h
        next htrail =>
          have htrail := dropBlanks_eq_nil_iff.1 (not_not.1 htrail)
          split at h
          next hnil =>
            cases h
            rw [← hsplit, hnil]
            exact .none (List.forall_mem_append.2 ⟨hgap, htrail⟩)
          next hne =>
            cases h
            have hword : IsOperand (String.ofList (body.takeWhile (!isBlank ·))).toList := by
              rw [String.toList_ofList]
              exact ⟨hne, fun c hc => by simpa using List.mem_takeWhile_imp hc⟩
            have htext := OperandText.some (List.cons_ne_nil b gap) hgap hword htrail
            rwa [String.toList_ofList, hsplit] at htext
      · cases h
  · intro h
    cases h with
    | none hg =>
      cases cs with
      | nil => rfl
      | cons b rest =>
        obtain ⟨hb, hrest⟩ := List.forall_mem_cons.1 hg
        have hnil : dropBlanks rest = [] := dropBlanks_eq_nil_iff.2 hrest
        have hdrop : dropBlanks [] = [] := rfl
        simp [operand?, hb, hnil, hdrop]
    | @some gap trail o hne hg ho ht =>
      obtain ⟨b, gap, rfl⟩ := List.exists_cons_of_ne_nil hne
      obtain ⟨hb, hg⟩ := List.forall_mem_cons.1 hg
      have hword : ∀ c ∈ o.toList, (!isBlank c) = true := fun c hc => by rw [ho.2 c hc]; rfl
      have hend : ∀ c ∈ trail.head?, (!isBlank c) = false := fun c hc => by
        rw [ht c (List.mem_of_mem_head? hc)]
        rfl
      have hdrop : dropBlanks (gap ++ (o.toList ++ trail)) = o.toList ++ trail :=
        dropBlanks_word (fun c hc => by simpa using hc) hg ho.1 hword
      simp only [List.cons_append, operand?, hb, if_true, hdrop,
        takeWhile_append_of_head? hword hend, dropWhile_append_of_head? hword hend,
        dropBlanks_eq_nil_iff.2 ht, ne_eq, not_true, if_false, ho.1, String.ofList_toList]

/-- What stands behind a word does not go on with it. -/
theorem OperandText.head {operand : Option String} {cs : List Char} (h : OperandText operand cs) :
    ∀ c ∈ cs.head?, isBlank c = true := by
  intro c hc
  cases h with
  | none hg => exact hg c (List.mem_of_mem_head? hc)
  | some hne hg _ _ =>
    rw [List.head?_append_of_ne_nil _ hne] at hc
    exact hg c (List.mem_of_mem_head? hc)

/-- A statement is read exactly where one stands. -/
theorem statement?_eq_some_iff {cs : List Char} {s : Statement} :
    statement? cs = some s ↔ StatementText (some s) cs := by
  constructor
  · intro h
    simp only [statement?] at h
    split at h
    next hw =>
      obtain ⟨operand, ho, rfl⟩ := Option.map_eq_some_iff.1 h
      obtain ⟨lead, hl, hcs⟩ := exists_blanks_append cs
      have hsplit := List.takeWhile_append_dropWhile (p := isMnemonicChar) (l := dropBlanks cs)
      have htext := StatementText.some hl
        (s := ⟨String.ofList ((dropBlanks cs).takeWhile isMnemonicChar), operand⟩)
        (by rwa [String.toList_ofList]) (operand?_eq_some_iff.1 ho)
      rwa [String.toList_ofList, hsplit, ← hcs] at htext
    · cases h
  · intro h
    cases h with
    | @some lead behind _ hl hm ho =>
      have hend : ∀ c ∈ behind.head?, isMnemonicChar c = false := fun c hc =>
        not_of_isBlank (fun _ => isBlank_of_isMnemonicChar) (ho.head c hc)
      have hdrop : dropBlanks (lead ++ (s.mnemonic.toList ++ behind)) =
          s.mnemonic.toList ++ behind :=
        dropBlanks_word (fun _ => isBlank_of_isMnemonicChar) hl hm.ne_nil hm.forall_mem
      have hread := operand?_eq_some_iff.2 ho
      have hword : isWord isMnemonicStart isMnemonicChar s.mnemonic.toList = true := hm
      simp only [statement?, hdrop, takeWhile_append_of_head? hm.forall_mem hend,
        dropWhile_append_of_head? hm.forall_mem hend, hword, if_true, hread, Option.map_some,
        String.ofList_toList]

/-- What stands behind the labels of a line is read exactly as what it is. -/
theorem body?_eq_some_iff {cs : List Char} {s : Option Statement} :
    body? cs = some s ↔ StatementText s cs := by
  by_cases hblank : dropBlanks cs = []
  · rw [body?, if_pos hblank]
    constructor
    · rintro ⟨⟩
      exact .none (dropBlanks_eq_nil_iff.1 hblank)
    · intro h
      cases h with
      | none => rfl
      | some hl hm ho =>
        rw [dropBlanks_word (fun _ => isBlank_of_isMnemonicChar) hl hm.ne_nil hm.forall_mem]
          at hblank
        exact absurd (List.append_eq_nil_iff.1 hblank).1 hm.ne_nil
  · rw [body?, if_neg hblank]
    constructor
    · intro h
      obtain ⟨s, hs, rfl⟩ := Option.map_eq_some_iff.1 h
      exact statement?_eq_some_iff.1 hs
    · intro h
      cases s with
      | none =>
        cases h with
        | none hl => exact absurd (dropBlanks_eq_nil_iff.2 hl) hblank
      | some s => rw [statement?_eq_some_iff.2 h, Option.map_some]

/-! ### Lines -/

/-- What stands behind the listing number is read as what it is, with a label or without one. -/
theorem exists_of_labelled? {cs : List Char} {label : Option String} {s : Option Statement}
    (h : labelled? cs = some (label, s)) :
    ∃ front text, TagText IsLabel label front ∧ StatementText s text ∧ cs = front ++ text := by
  rw [labelled?, Option.orElse_eq_orElse, Option.orElse_eq_or, Option.or_eq_some_iff] at h
  rcases h with h | ⟨-, h⟩
  · obtain ⟨⟨name, rest⟩, hlabel, h⟩ := Option.bind_eq_some_iff.1 h
    obtain ⟨body, hbody, h⟩ := Option.map_eq_some_iff.1 h
    cases h
    obtain ⟨front, hfront, rfl⟩ := label?_eq_some_iff.1 hlabel
    exact ⟨front, rest, hfront, body?_eq_some_iff.1 hbody, rfl⟩
  · obtain ⟨body, hbody, h⟩ := Option.map_eq_some_iff.1 h
    cases h
    exact ⟨[], cs, .none, body?_eq_some_iff.1 hbody, rfl⟩

/-- A line with a label is read with it. -/
theorem labelled?_of_label {front text : List Char} {label : String} {s : Option Statement}
    (hl : TagText IsLabel (some label) front) (hs : StatementText s text) :
    labelled? (front ++ text) = some (some label, s) := by
  have hread : label? (front ++ text) = some (label, text) :=
    label?_eq_some_iff.2 ⟨front, hl, rfl⟩
  simp [labelled?, hread, body?_eq_some_iff.2 hs]

/-- A mnemonic is no label if its operand does not begin with a colon. -/
theorem label?_of_statementText {cs : List Char} {s : Option Statement} (h : StatementText s cs)
    (hcolon : ∀ t ∈ s, ∀ o ∈ t.operand, o.toList.head? ≠ some ':') : label? cs = none := by
  cases hl : label? cs with
  | none => rfl
  | some read =>
    exfalso
    rw [label?_eq_tag?] at hl
    obtain ⟨-, hname, hrest⟩ := tag?_eq_some_iff_takeWhile.1 hl
    cases h with
    | none hb =>
      rw [dropBlanks_eq_nil_iff.2 hb] at hrest
      cases hrest
    | @some lead behind t hlead hm ho =>
      have hword : ∀ c ∈ t.mnemonic.toList, isLabelChar c = true :=
        fun c hc => isLabelChar_of_isMnemonicChar (hm.forall_mem c hc)
      have hend : ∀ c ∈ behind.head?, isLabelChar c = false := fun c hc =>
        not_of_isBlank (fun _ => isBlank_of_isLabelChar) (ho.head c hc)
      rw [dropBlanks_word (fun _ => isBlank_of_isLabelChar) hlead hm.ne_nil hword,
        dropWhile_append_of_head? hword hend] at hrest
      obtain ⟨mnemonic, operand⟩ := t
      cases ho with
      | none hg =>
        rw [dropBlanks_eq_nil_iff.2 hg] at hrest
        cases hrest
      | @some gap trail o hne hg ho ht =>
        rw [dropBlanks_word (p := (!isBlank ·)) (fun c hc => by simpa using hc) hg ho.1
          (fun c hc => by rw [ho.2 c hc]; rfl)] at hrest
        refine hcolon _ rfl o rfl ?_
        rw [← List.head?_append_of_ne_nil _ ho.1, hrest, List.head?_cons]

/-- What stands behind the listing number is not read as one. -/
theorem listing?_of_labelText {front text : List Char} {label : Option String}
    {s : Option Statement} (hl : TagText IsLabel label front) (hs : StatementText s text) :
    listing? (front ++ text) = none := by
  have hhead : ∀ c ∈ (dropBlanks (front ++ text)).head?, isLabelStart c = true := by
    intro c hc
    cases hl with
    | none =>
      cases hs with
      | none hb =>
        rw [List.nil_append, dropBlanks_eq_nil_iff.2 hb] at hc
        cases hc
      | @some lead behind t hlead hm ho =>
        rw [List.nil_append, dropBlanks_word (fun _ => isBlank_of_isMnemonicChar) hlead hm.ne_nil
          hm.forall_mem, List.head?_append_of_ne_nil _ hm.ne_nil] at hc
        obtain ⟨d, hd, hstart⟩ := hm.head
        cases hd.symm.trans hc
        exact isLabelStart_of_isMnemonicStart hstart
    | @some lead gap name hlead hn hg =>
      rw [List.append_assoc, List.append_assoc, dropBlanks_word (fun _ => isBlank_of_isLabelChar)
        hlead hn.ne_nil hn.forall_mem, List.head?_append_of_ne_nil _ hn.ne_nil] at hc
      obtain ⟨d, hd, hstart⟩ := hn.head
      cases hd.symm.trans hc
      exact hstart
  cases hread : listing? (front ++ text) with
  | none => rfl
  | some read =>
    exfalso
    rw [listing?_eq_tag?] at hread
    obtain ⟨hdigits, hword, -⟩ := tag?_eq_some_iff_takeWhile.1 hread
    cases hrest : dropBlanks (front ++ text) with
    | nil =>
      rw [hrest] at hword
      exact hdigits.1 hword.symm
    | cons c rest =>
      rw [hrest] at hword hhead
      rw [List.takeWhile_cons_of_neg (by simp [isDecimalDigit_of_isLabelStart (hhead c rfl)])]
        at hword
      exact hdigits.1 hword.symm

/-- **What is read from a text is a line of that text.** -/
theorem lineText_of_parse? {cs : List Char} {line : Line} (h : Line.parse? cs = some line) :
    LineText line cs := by
  unfold Line.parse? at h
  cases hlisting : listing? cs with
  | none =>
    rw [hlisting] at h
    obtain ⟨⟨label, s⟩, hread, rfl⟩ := Option.map_eq_some_iff.1 h
    obtain ⟨front, text, hl, hs, rfl⟩ := exists_of_labelled? hread
    exact ⟨[], front, text, .none, hl, hs, rfl⟩
  | some read =>
    rw [hlisting] at h
    obtain ⟨⟨label, s⟩, hread, rfl⟩ := Option.map_eq_some_iff.1 h
    obtain ⟨listing, hn, rfl⟩ := listing?_eq_some_iff.1 hlisting
    obtain ⟨front, text, hl, hs, htext⟩ := exists_of_labelled? hread
    exact ⟨listing, front, text, hn, hl, hs, htext ▸ rfl⟩

/-- **A line is read from each of its texts**, if its mnemonic cannot be taken for a label. -/
theorem parse?_of_lineText {cs : List Char} {line : Line} (h : LineText line cs)
    (hcolon : line.label = none → ∀ s ∈ line.statement, ∀ o ∈ s.operand,
      o.toList.head? ≠ some ':') : Line.parse? cs = some line := by
  obtain ⟨listedAt, label, s⟩ := line
  obtain ⟨listing, front, text, hn, hl, hs, rfl⟩ := h
  have hread : labelled? (front ++ text) = some (label, s) := by
    cases label with
    | some label => exact labelled?_of_label hl hs
    | none =>
      cases hl with
      | none =>
        rw [List.nil_append, labelled?, label?_of_statementText hs (hcolon rfl),
          body?_eq_some_iff.2 hs]
        rfl
  unfold Line.parse?
  cases listedAt with
  | none =>
    cases hn with
    | none =>
      rw [List.nil_append, listing?_of_labelText hl hs]
      simp only [hread, Option.map_some]
  | some digits =>
    rw [listing?_eq_some_iff.2 ⟨listing, hn, rfl⟩]
    simp only [hread, Option.map_some]

end StackMachine.Assembly
