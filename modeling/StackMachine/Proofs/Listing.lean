import StackMachine.Listing
import StackMachine.Proofs.Assembly.Spelling
import StackMachine.Proofs.Hexadecimal
import StackMachine.Proofs.Tiling

/-!
# What a listing tells of its code

A listing is read here as the text that it is: its lines end at the newlines, the first column of a
line ends at the colon, and the second one at the next space. Read in this way, a listing has a line
for each item of the walk, the second columns together spell the code, and the first column of a
line counts the bytes that the second ones have spelled before it (`listing_lossless`). So a code
can be told from its listing, whatever its bytes are.
-/

namespace StackMachine

open Text

/-! ### The columns of a text -/

namespace Listing

/-- The column of the offset ends in front of the colon. -/
def offsetColumn (row : List Char) : List Char := row.takeWhile (· ≠ ':')

/-- The column of the bytes begins behind the colon and a space, and ends in front of a space. -/
def bytesColumn (row : List Char) : List Char :=
  ((row.dropWhile (· ≠ ':')).drop 2).takeWhile (· ≠ ' ')

end Listing

namespace ListingLine

/-- A line as characters, without its newline. -/
def row (line : ListingLine) : List Char :=
  line.offsetColumn ++ ':' :: ' ' :: (line.bytesColumn.rightpad 8 ' ' ++ ' ' :: line.text.toList)

theorem toList_render (line : ListingLine) : line.render.toList = line.row ++ ['\n'] := by
  simp [render, row]

theorem forall_mem_offsetColumn (line : ListingLine) :
    ∀ c ∈ line.offsetColumn, decide (c ≠ ':') = true := by
  rintro c hc
  rw [decide_eq_true_eq]
  rintro rfl
  exact Hexadecimal.not_mem_padded rfl _ _ hc

theorem offsetColumn_row (line : ListingLine) :
    Listing.offsetColumn line.row = line.offsetColumn :=
  takeWhile_append_of_head? line.forall_mem_offsetColumn (by simp)

theorem bytesColumn_row (line : ListingLine) : Listing.bytesColumn line.row = line.bytesColumn := by
  have hdrop : line.row.dropWhile (· ≠ ':') =
      ':' :: ' ' :: (line.bytesColumn.rightpad 8 ' ' ++ ' ' :: line.text.toList) :=
    dropWhile_append_of_head? line.forall_mem_offsetColumn (by simp)
  have hdigits : ∀ c ∈ line.bytesColumn, decide (c ≠ ' ') = true := by
    rintro c hc
    rw [decide_eq_true_eq]
    rintro rfl
    exact Hexadecimal.not_mem_ofBytes rfl _ hc
  -- The column ends at the first space, which is one that fills it up or the one behind it.
  rw [Listing.bytesColumn, hdrop, List.drop_succ_cons, List.drop_succ_cons, List.drop_zero,
    List.rightpad, List.append_assoc]
  have hspace (k : Nat) :
      (List.replicate k ' ' ++ ' ' :: line.text.toList).head? = some ' ' := by
    cases k <;> rfl
  refine takeWhile_append_of_head? hdigits fun c hc => ?_
  rw [hspace] at hc
  cases hc
  rfl

theorem newline_not_mem_row {line : ListingLine} (h : '\n' ∉ line.text.toList) :
    '\n' ∉ line.row := by
  have hoffset := Hexadecimal.not_mem_padded (c := '\n') rfl 4 line.offset
  have hbytes := Hexadecimal.not_mem_ofBytes (c := '\n') rfl line.bytes
  simp [row, List.rightpad, offsetColumn, bytesColumn, hoffset, hbytes, h]

/-! ### The line of an item -/

/-- The line shows an item: its offset, its bytes, and a text that ends with the line. -/
structure Shows (code : Code) (item : Item) (line : ListingLine) : Prop where
  offset : line.offset = item.offset
  bytes : line.bytes = item.bytes code
  text : '\n' ∉ line.text.toList

theorem newline_not_mem_text (i : Instruction) : '\n' ∉ i.text.toList := by
  intro h
  have hplain : '\n' ∈ (Assembly.Spelling.plain.line 0 i).toList := h
  exact (Assembly.Spelling.char_of_mem_line hplain).1 rfl

theorem newline_not_mem_mnemonic (op : Opcode) : '\n' ∉ op.mnemonic.toList := by
  have key : ∀ op ∈ Opcode.all, '\n' ∉ op.mnemonic.toList := by decide +kernel
  exact key op (Opcode.mem_all op)

theorem newline_not_mem_target (t : Int) : '\n' ∉ (target t).toList := by
  have hdigits := Hexadecimal.not_mem_padded (c := '\n') rfl 4 t.natAbs
  unfold target
  split <;> simp [hdigits]

/-- **Every item of a walk has its line**, and there are three kinds of them: an instruction, a
byte that is no opcode, and all the bytes that are left where an operand is truncated. -/
theorem exists_shows {code : Code} {pos : Nat} {items : List Item} (h : Tiles code pos items)
    {item : Item} (hm : item ∈ items) : ∃ line, ofItem? code item = some line ∧
      line.Shows code item := by
  rcases h.result_cases hm with ⟨b, hb, hr⟩ | ⟨op, _, hr⟩ | ⟨i, -, hr⟩
  · have hbytes : [b] = item.bytes code := by
      obtain ⟨hlt, rfl⟩ := Array.getElem?_eq_some_iff.1 hb
      simp [Item.bytes, Item.stop, hr, List.extract_eq_take_drop, List.take_one, hlt]
    unfold ofItem?
    rw [hr]
    refine ⟨_, rfl, rfl, hbytes, ?_⟩
    have hdigits := Hexadecimal.not_mem_padded (c := '\n') rfl 2 b.toNat
    simp [Hexadecimal.marked, hdigits]
  · have hbytes : (code.extract item.offset code.size).toList = item.bytes code := by
      rw [Item.bytes, Item.stop, hr]
    unfold ofItem?
    rw [hr]
    refine ⟨_, rfl, rfl, hbytes, ?_⟩
    simp [newline_not_mem_mnemonic]
  · have hbytes : (code.extract item.offset (item.offset + i.size)).toList = item.bytes code := by
      rw [Item.bytes, Item.stop, hr]
    unfold ofItem?
    rw [hr]
    refine ⟨_, rfl, rfl, hbytes, ?_⟩
    dsimp only
    split <;> simp [newline_not_mem_text, newline_not_mem_target]

/-- The columns of the bytes spell the bytes of the items. -/
theorem flatMap_bytesColumn {code : Code} {items : List Item} {lines : List ListingLine}
    (h : List.Forall₂ (fun item line => Shows code item line) items lines) :
    (lines.map row).flatMap Listing.bytesColumn =
      Hexadecimal.ofBytes (items.flatMap (Item.bytes code)) := by
  rw [List.flatMap_map, Hexadecimal.ofBytes_flatMap]
  induction h with
  | nil => rfl
  | cons hs _ ih =>
    rw [List.flatMap_cons, List.flatMap_cons, ih, bytesColumn_row, bytesColumn, hs.bytes]

end ListingLine

/-! ### The whole listing -/

/-- The lines of a listing show the items of the walk, one each. -/
theorem forall₂_listingLines (code : Code) :
    List.Forall₂ (fun item line => ListingLine.Shows code item line) (walk code)
      (listingLines code) :=
  forall₂_filterMap fun _ hm => ListingLine.exists_shows (tiles_walk code) hm

/-- The lines of the text are those of the listing, and behind the last newline there is nothing. -/
theorem lines_join_render {ls : List ListingLine}
    (h : ∀ line ∈ ls, '\n' ∉ line.text.toList) :
    lines (String.join (ls.map ListingLine.render)).toList = ls.map ListingLine.row ++ [[]] := by
  induction ls with
  | nil => rfl
  | cons line ls ih =>
    obtain ⟨hline, hls⟩ := List.forall_mem_cons.1 h
    rw [List.map_cons, String.join_cons, String.toList_append, ListingLine.toList_render,
      List.append_assoc, List.singleton_append,
      lines_append_newline (ListingLine.newline_not_mem_row hline), ih hls]
    rfl

theorem lines_listing (code : Code) :
    lines (listing code).toList = (listingLines code).map ListingLine.row ++ [[]] := by
  refine lines_join_render fun line hm => ?_
  obtain ⟨item, -, hs⟩ := exists_mem_of_forall₂ (forall₂_listingLines code).flip hm
  exact hs.text

/-- The columns of the bytes spell the code. -/
theorem flatMap_bytesColumn_listing (code : Code) :
    ((listingLines code).map ListingLine.row).flatMap Listing.bytesColumn =
      Hexadecimal.ofBytes code.toList := by
  rw [ListingLine.flatMap_bytesColumn (forall₂_listingLines code), (tiles_walk code).flatMap_bytes,
    List.drop_zero]

theorem listing_injective : Function.Injective listing := fun code other h => by
  have hrows : (listingLines code).map ListingLine.row =
      (listingLines other).map ListingLine.row := by
    refine (List.append_left_inj [[]]).1 ?_
    rw [← lines_listing, h, lines_listing]
  have hbytes : Hexadecimal.ofBytes code.toList = Hexadecimal.ofBytes other.toList := by
    rw [← flatMap_bytesColumn_listing, hrows, flatMap_bytesColumn_listing]
  exact Array.toList_inj.1 (Hexadecimal.ofBytes_injective hbytes)

/-- What the columns of the bytes spell before a line is as long as the column of the offset
says. -/
theorem offsetColumn_listing {code : Code} {k : Nat} {line : ListingLine}
    (hk : (listingLines code)[k]? = some line) : ∃ before : List UInt8,
      (((listingLines code).take k).map ListingLine.row).flatMap Listing.bytesColumn =
        Hexadecimal.ofBytes before ∧
      Listing.offsetColumn line.row = Hexadecimal.padded 4 before.length := by
  have h := forall₂_listingLines code
  obtain ⟨item, hitem, hs⟩ := exists_getElem?_of_forall₂ h.flip hk
  have hlength := (tiles_walk code).length_flatMap_bytes_take hitem
  rw [Nat.zero_add] at hlength
  refine ⟨_, ListingLine.flatMap_bytesColumn (List.forall₂_take k h), ?_⟩
  rw [ListingLine.offsetColumn_row, ListingLine.offsetColumn, hs.offset, hlength]

/-- The line of a truncated operand is the last one and shows all the bytes that are left. -/
theorem bytesColumn_of_truncated {code : Code} {k : Nat} {item : Item} {op : Opcode}
    {shortfall : Shortfall} (hk : (walk code)[k]? = some item)
    (hr : item.result = .error (.truncatedOperand op shortfall)) :
    k + 1 = (listingLines code).length ∧ ∃ line, (listingLines code)[k]? = some line ∧
      line.bytesColumn = Hexadecimal.ofBytes (code.toList.drop item.offset) := by
  have h := forall₂_listingLines code
  have hstop : item.stop code.size = code.size := by rw [Item.stop, hr]
  obtain ⟨line, hline, hs⟩ := exists_getElem?_of_forall₂ h hk
  refine ⟨?_, line, hline, ?_⟩
  · rw [← h.length_eq]
    exact (tiles_walk code).length_of_truncated hk hstop
  · rw [ListingLine.bytesColumn, hs.bytes, Item.bytes, hstop, Array.toList_extract,
      List.extract_eq_take_drop, List.take_of_length_le (by simp)]

/-- **A listing loses nothing.** It has a line for each item of the walk; the columns of the bytes
spell the code; the column of the offset counts, in four digits at least, the bytes that are spelled
before; and where an operand is truncated, the last line shows all the bytes that are left. So no
two codes have the same listing. -/
theorem listing_lossless :
    (∀ code : Code, ∃ rows : List (List Char),
      lines (listing code).toList = rows ++ [[]] ∧
      rows.length = (walk code).length ∧
      rows.flatMap Listing.bytesColumn = Hexadecimal.ofBytes code.toList ∧
      Hexadecimal.parse (rows.flatMap Listing.bytesColumn) = .ok code.toList ∧
      (∀ (k : Nat) (row : List Char), rows[k]? = some row → ∃ before : List UInt8,
        Hexadecimal.parse ((rows.take k).flatMap Listing.bytesColumn) = .ok before ∧
        Listing.offsetColumn row = Hexadecimal.padded 4 before.length) ∧
      ∀ (k : Nat) (item : Item) (op : Opcode) (shortfall : Shortfall),
        (walk code)[k]? = some item → item.result = .error (.truncatedOperand op shortfall) →
        k + 1 = rows.length ∧ ∃ row, rows[k]? = some row ∧
          Listing.bytesColumn row = Hexadecimal.ofBytes (code.toList.drop item.offset)) ∧
    Function.Injective listing := by
  refine ⟨fun code => ?_, listing_injective⟩
  have hspelled := flatMap_bytesColumn_listing code
  refine ⟨(listingLines code).map ListingLine.row, lines_listing code, ?_, hspelled, ?_, ?_, ?_⟩
  · rw [List.length_map, (forall₂_listingLines code).length_eq]
  · rw [hspelled, Hexadecimal.parse_ofBytes]
  · intro k row hk
    rw [List.getElem?_map, Option.map_eq_some_iff] at hk
    obtain ⟨line, hline, rfl⟩ := hk
    obtain ⟨before, hbefore, hoffset⟩ := offsetColumn_listing hline
    refine ⟨before, ?_, hoffset⟩
    rw [← List.map_take, hbefore, Hexadecimal.parse_ofBytes]
  · intro k item op shortfall hk hr
    obtain ⟨hlast, line, hline, hbytes⟩ := bytesColumn_of_truncated hk hr
    refine ⟨by rw [List.length_map, hlast], line.row, ?_, ?_⟩
    · rw [List.getElem?_map, hline, Option.map_some]
    · rw [ListingLine.bytesColumn_row, hbytes]

/-- A byte that is no opcode, an instruction, and an instruction with half of its operand. -/
theorem listing_lossless_unknown_then_truncated :
    ∃ rows : List (List Char),
      lines (listing #[0xb8, 0x04, 0x11, 0x00]).toList = rows ++ [[]] ∧ rows.length = 3 ∧
      ∃ row, rows[2]? = some row ∧ Listing.bytesColumn row = "1100".toList := by
  obtain ⟨rows, hlines, hlength, -, -, -, htruncated⟩ :=
    listing_lossless.1 #[0xb8, 0x04, 0x11, 0x00]
  let shortfall : Shortfall := { offset := 3, needed := 2, available := 1 }
  let item : Item := { offset := 2, result := .error (.truncatedOperand .sipush shortfall) }
  obtain ⟨-, row, hrow, hbytes⟩ :=
    htruncated 2 item .sipush shortfall (by cbv) rfl
  exact ⟨rows, hlines, hlength.trans (by decide +kernel), row, hrow,
    hbytes.trans (by decide +kernel)⟩

example : listing #[0xb8, 0x04, 0x11, 0x00] =
    "0000: b8       unknown_opcode 0xb8\n0001: 04       iconst_1\n" ++
      "0002: 1100     sipush <truncated>\n" := by
  decide +kernel

end StackMachine
