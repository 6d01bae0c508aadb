import StackMachine.Proofs.ProgramFile.RoundTrip

/-!
# The layout of a header

Where the fields of a header stand is laid down three times: by the pieces that are written one
behind the other, by the offsets at which bytes are put into a block, and by the offsets from which
numbers are read. The three agree (`Header.layouts_agree`). Of a byte string that is read, only the
two bytes between the version and the length of the code, and what stands behind the sixteenth, are
lost: the bytes of the header are the others (`Header.toBytes_ofBytes`).
-/

namespace StackMachine

namespace Header

/-- The bytes of a header with zeros in place of the two that have no meaning. -/
def withoutPadding (b : List UInt8) : List UInt8 := b.take 6 ++ [0, 0] ++ (b.take 16).drop 8

variable {b b' : List UInt8}

/-- Bytes that stand one behind the other, cut out one after the other or at once. -/
theorem drop_take_append_drop_take (b : List UInt8) {start mid stop : Nat} (h : start ≤ mid)
    (h' : mid ≤ stop) :
    (b.take mid).drop start ++ (b.take stop).drop mid = (b.take stop).drop start := by
  have hmid : start + (mid - start) = mid := Nat.add_sub_cancel' h
  rw [← List.take_append_drop (mid - start) ((b.take stop).drop start), List.take_drop,
    List.drop_drop, hmid, List.take_take, Nat.min_eq_left h']

/-- A header has the bytes that it was read from, but for the padding. -/
theorem toBytes_ofBytes (hb : size ≤ b.length) : (ofBytes b).toBytes = withoutPadding b := by
  obtain ⟨hmagic, hversion, hlength, hentry⟩ := toNat_ofBytes b
  have hfield (start : Nat) {stop : Nat} (hstop : stop ≤ size) :=
    bytes_numberAt start stop (Nat.le_trans hstop hb)
  have hfront : (b.take 4).drop 0 ++ (b.take 6).drop 4 = (b.take 6).drop 0 :=
    drop_take_append_drop_take b (by decide) (by decide)
  have hback : (b.take 12).drop 8 ++ (b.take 16).drop 12 = (b.take 16).drop 8 :=
    drop_take_append_drop_take b (by decide) (by decide)
  calc (ofBytes b).toBytes
    _ = (ofBytes b).pieces.flatten := (flatten_pieces _).symm
    _ = ((b.take 4).drop 0 ++ (b.take 6).drop 4) ++ [0, 0] ++
          ((b.take 12).drop 8 ++ (b.take 16).drop 12) := by
      rw [← hfield 0 (by decide), ← hfield 4 (by decide), ← hfield 8 (by decide),
        ← hfield 12 (by decide), pieces, hmagic, hversion, hlength, hentry]
      simp only [List.flatten_cons, List.flatten_nil, List.append_nil, List.append_assoc]
      rfl
    _ = withoutPadding b := by rw [hfront, hback, List.drop_zero, withoutPadding]

/-- Two byte strings are read as the same header just if they differ in nothing but the padding and
what stands behind the header. -/
theorem parse_eq_parse_iff (hb : size ≤ b.length) (hb' : size ≤ b'.length) :
    parse b = parse b' ↔ withoutPadding b = withoutPadding b' := by
  rw [parse_of_le hb, parse_of_le hb', ← toBytes_ofBytes hb, ← toBytes_ofBytes hb']
  constructor
  · intro h
    rw [Except.ok.inj h]
  · intro h
    have hread := ofBytes_toBytes_append (ofBytes b) []
    rw [h, ofBytes_toBytes_append] at hread
    rw [hread]

theorem withoutPadding_eq_iff (hb : size ≤ b.length) (hb' : size ≤ b'.length) :
    withoutPadding b = withoutPadding b' ↔
      b.take 6 = b'.take 6 ∧ (b.take 16).drop 8 = (b'.take 16).drop 8 := by
  have hfront : (b.take 6 ++ [0, 0]).length = (b'.take 6 ++ [0, 0]).length := by
    rw [size] at hb hb'
    simp only [List.length_append, List.length_take]
    omega
  constructor
  · intro h
    obtain ⟨hleft, hright⟩ := List.append_inj h hfront
    exact ⟨List.append_cancel_right hleft, hright⟩
  · rintro ⟨hleft, hright⟩
    rw [withoutPadding, withoutPadding, hleft, hright]

/-- **The three layouts of a header agree.** What is written, to a sink that takes everything, are
the bytes of the header, and a header is read again from its bytes, whatever stands behind them.
Sixteen bytes or more are always read, and the bytes of the header that is read are the first
sixteen of them with zeros in place of the seventh and the eighth; so it is exactly these two and
what stands behind the header that do not matter. -/
theorem layouts_agree :
    (∀ (h : Header) (taken : List UInt8), h.write.run { taken, limit := none } =
      .ok () { taken := taken ++ h.toBytes, limit := none }) ∧
    (∀ (h : Header) (rest : List UInt8), parse (h.toBytes ++ rest) = .ok h) ∧
    (∀ b : List UInt8, 16 ≤ b.length →
      ∃ h, parse b = .ok h ∧ h.toBytes = b.take 6 ++ [0, 0] ++ (b.take 16).drop 8) ∧
    ∀ b b' : List UInt8, 16 ≤ b.length → 16 ≤ b'.length →
      (parse b = parse b' ↔
        b.take 6 = b'.take 6 ∧ (b.take 16).drop 8 = (b'.take 16).drop 8) := by
  refine ⟨?_, ?_, ?_, ?_⟩
  · intro h taken
    rw [Header.write, forM_write, flatten_pieces]
    rfl
  · intro h rest
    rw [parse_of_le (h.size_le_length_toBytes_append rest), ofBytes_toBytes_append]
  · intro b hb
    exact ⟨_, parse_of_le hb, toBytes_ofBytes hb⟩
  · intro b b' hb hb'
    rw [parse_eq_parse_iff hb hb', withoutPadding_eq_iff hb hb']

/-- A header of seventeen bytes with something in its padding. -/
theorem layouts_agree_padded :
    let b : List UInt8 := [0xbe, 0xba, 0xfe, 0xca, 1, 0, 0xaa, 0x55, 2, 0, 0, 0, 9, 0, 0, 0, 0xac]
    let b' : List UInt8 := [0xbe, 0xba, 0xfe, 0xca, 1, 0, 0, 0, 2, 0, 0, 0, 9, 0, 0, 0]
    16 ≤ b.length ∧ 16 ≤ b'.length ∧ parse b = parse b' ∧
      ∃ h, parse b = .ok h ∧ h.toBytes = b' := by
  intro b b'
  have hb : 16 ≤ b.length := by decide
  have hb' : 16 ≤ b'.length := by decide
  exact ⟨hb, hb', (layouts_agree.2.2.2 b b' hb hb').2 ⟨rfl, rfl⟩, layouts_agree.2.2.1 b hb⟩

end Header

end StackMachine
