import StackMachine.Proofs.ByteOrder
import StackMachine.Proofs.ProgramFile.Source

/-!
# What is read from a file

What `readProgram` makes of a source that does not fail is decided by the bytes of the source
(`readProgram_of_bytes`): first there must be a header, then it must be valid, and then the bytes
behind it must be exactly as many as it says.
-/

namespace StackMachine

/-! ### The header -/

namespace Header

/-- The header that stands at the beginning of a byte string. -/
def ofBytes (b : List UInt8) : Header where
  magic := .ofNat (numberAt b 0 4)
  version := .ofNat (numberAt b 4 6)
  codeLength := .ofNat (numberAt b 8 12)
  entryPoint := .ofNat (numberAt b 12 16)

variable {b : List UInt8}

theorem numberAt_lt (b : List UInt8) (start stop : Nat) :
    numberAt b start stop < 256 ^ (stop - start) := by
  refine Nat.lt_of_lt_of_le (LittleEndian.value_lt _) (Nat.pow_le_pow_right (by decide) ?_)
  rw [List.length_drop, List.length_take]
  omega

theorem numberAt_take (b : List UInt8) (start : Nat) {stop n : Nat} (h : stop ≤ n) :
    numberAt (b.take n) start stop = numberAt b start stop := by
  rw [numberAt, numberAt, List.take_take, Nat.min_eq_left h]

/-- What stands behind a header is no part of it. -/
theorem ofBytes_take (b : List UInt8) {n : Nat} (h : size ≤ n) :
    ofBytes (b.take n) = ofBytes b := by
  have hfield (start : Nat) {stop : Nat} (hstop : stop ≤ size) :
      numberAt (b.take n) start stop = numberAt b start stop :=
    numberAt_take b start (Nat.le_trans hstop h)
  rw [ofBytes, ofBytes, hfield 0 (by decide), hfield 4 (by decide), hfield 8 (by decide),
    hfield 12 (by decide)]

/-- No field is too small for the number in its bytes. -/
theorem toNat_ofBytes (b : List UInt8) :
    (ofBytes b).magic.toNat = numberAt b 0 4 ∧ (ofBytes b).version.toNat = numberAt b 4 6 ∧
      (ofBytes b).codeLength.toNat = numberAt b 8 12 ∧
      (ofBytes b).entryPoint.toNat = numberAt b 12 16 :=
  ⟨Nat.mod_eq_of_lt (numberAt_lt b 0 4), Nat.mod_eq_of_lt (numberAt_lt b 4 6),
    Nat.mod_eq_of_lt (numberAt_lt b 8 12), Nat.mod_eq_of_lt (numberAt_lt b 12 16)⟩

theorem parse_of_lt (h : b.length < size) : parse b = .error (.truncated b.length) := if_pos h

theorem parse_of_le (h : size ≤ b.length) : parse b = .ok (ofBytes b) :=
  if_neg (Nat.not_lt_of_le h)

theorem parse_take_size (h : size ≤ b.length) : parse (b.take size) = .ok (ofBytes b) := by
  have hl : size ≤ (b.take size).length := by
    rw [List.length_take]
    omega
  rw [parse_of_le hl, ofBytes_take b (Nat.le_refl size)]

theorem size_le_of_parse_take_size {h : Header} (hp : parse (b.take size) = .ok h) :
    size ≤ b.length := by
  rcases Nat.lt_or_ge b.length size with hlt | hle
  · have hshort : (b.take size).length < size := Nat.lt_of_le_of_lt (List.length_take_le' ..) hlt
    cases (parse_of_lt hshort).symm.trans hp
  · exact hle

/-- A header is valid just if the numbers in its bytes are the magic number and a version that is
understood; the magic number is looked at first. -/
theorem validate_ofBytes (b : List UInt8) :
    (ofBytes b).validate =
      if numberAt b 0 4 ≠ 0xcafebabe then .error (.badMagic 0xcafebabe (ofBytes b).magic)
      else if 1 < numberAt b 4 6 then .error (.badVersion (ofBytes b).version 1)
      else .ok () := by
  obtain ⟨hmagic, hversion, -⟩ := toNat_ofBytes b
  rw [← hmagic, ← hversion]
  simp only [validate, ne_eq, ← UInt32.toNat_inj, UInt16.lt_iff_toNat_lt]
  rfl

end Header

/-! ### The program -/

variable {s : Source}

theorem readProgram_of_parse_error (hf : s.failure = none) {e : HeaderError}
    (h : Header.parse (s.bytes.take Header.size) = .error e) :
    readProgram s = .error (.invalidHeader e) := by
  obtain ⟨rest, htake, -⟩ := Source.take_of_failure_eq_none hf Header.size
  unfold readProgram
  simp only [htake, Except.mapError, bind, Except.bind, h]

/-- What stands behind a header that is not valid is not looked at. -/
theorem readProgram_of_validate_error {h : Header} {e : HeaderError}
    (hp : Header.parse (s.bytes.take Header.size) = .ok h) (hv : h.validate = .error e) :
    readProgram s = .error (.invalidHeader e) := by
  obtain ⟨rest, htake, -⟩ := Source.take_of_le (Header.size_le_of_parse_take_size hp)
  unfold readProgram
  simp only [htake, Except.mapError, bind, Except.bind, hp, hv]

/-- Behind a valid header there must be as many bytes as it says. -/
theorem readProgram_of_validate_ok (hf : s.failure = none) {h : Header}
    (hp : Header.parse (s.bytes.take Header.size) = .ok h) (hv : h.validate = .ok ()) :
    readProgram s =
      if s.bytes.length - Header.size < h.codeLength.toNat then
        .error (.truncatedCode h.codeLength.toNat (s.bytes.length - Header.size))
      else if h.codeLength.toNat < s.bytes.length - Header.size then
        .error (.invalidHeader
          (.badLength h.codeLength.toNat (s.bytes.length - Header.size)))
      else .ok { header := h, code := (s.bytes.drop Header.size).toArray } := by
  obtain ⟨rest, htake, hrest, hf'⟩ := Source.take_of_failure_eq_none hf Header.size
  obtain ⟨last, hread, hlast, hf''⟩ := readCode_of_failure_eq_none hf' h.codeLength.toNat #[]
  have hall := Source.readAll_of_failure_eq_none hf''
  rw [hrest, Array.empty_append, Array.size_empty, Nat.sub_zero] at hread
  rw [hlast, hrest, Array.size_empty, Nat.sub_zero] at hall
  unfold readProgram
  simp only [htake, Except.mapError, bind, Except.bind, hp, hv, hread, hall, List.size_toArray,
    List.length_take, ← List.length_drop]
  generalize s.bytes.drop Header.size = body
  generalize h.codeLength.toNat = length
  rcases Nat.lt_trichotomy body.length length with hlt | heq | hgt
  · rw [if_pos (by omega), if_pos hlt, Nat.min_eq_right (Nat.le_of_lt hlt)]
    rfl
  · subst heq
    simp
    rfl
  · have hfull : ¬ min length body.length < length := by omega
    have hmore : body.drop length ≠ [] := by simpa using hgt
    have hcount : length + (body.drop length).length = body.length := by
      rw [List.length_drop]
      omega
    rw [if_neg hfull, if_pos hmore, if_neg (Nat.lt_asymm hgt), if_pos hgt, hcount]
    rfl

/-- **Reading depends on the bytes only.** A source that does not fail and hands out the bytes `b`,
in whatever pieces, is read to the same result: the first thing that is wrong, of the length of
the header, the magic number, the version, too few bytes of code and too many; and if nothing is,
the program with the fields of the header and all the bytes behind it. -/
theorem readProgram_of_bytes {b : List UInt8} {s : Source} (hb : s.bytes = b)
    (hf : s.failure = none) :
    readProgram s =
        (if b.length < 16 then .error (.invalidHeader (.truncated b.length))
        else if Header.numberAt b 0 4 ≠ 0xcafebabe then
          .error (.invalidHeader (.badMagic 0xcafebabe (Header.ofBytes b).magic))
        else if 1 < Header.numberAt b 4 6 then
          .error (.invalidHeader (.badVersion (Header.ofBytes b).version 1))
        else if b.length - 16 < Header.numberAt b 8 12 then
          .error (.truncatedCode (Header.numberAt b 8 12) (b.length - 16))
        else if Header.numberAt b 8 12 < b.length - 16 then
          .error (.invalidHeader (.badLength (Header.numberAt b 8 12) (b.length - 16)))
        else .ok { header := .ofBytes b, code := (b.drop 16).toArray }) ∧
      (Header.ofBytes b).magic.toNat = Header.numberAt b 0 4 ∧
      (Header.ofBytes b).version.toNat = Header.numberAt b 4 6 ∧
      (Header.ofBytes b).codeLength.toNat = Header.numberAt b 8 12 ∧
      (Header.ofBytes b).entryPoint.toNat = Header.numberAt b 12 16 := by
  subst hb
  refine ⟨?_, Header.toNat_ofBytes _⟩
  rcases Nat.lt_or_ge s.bytes.length 16 with hshort | hlong
  · rw [if_pos hshort]
    have hall : s.bytes.take Header.size = s.bytes :=
      List.take_of_length_le (Nat.le_of_lt hshort)
    exact readProgram_of_parse_error hf (by rw [hall, Header.parse_of_lt hshort])
  have hp := Header.parse_take_size hlong
  have hv := Header.validate_ofBytes s.bytes
  rw [if_neg (Nat.not_lt_of_le hlong)]
  by_cases hmagic : Header.numberAt s.bytes 0 4 ≠ 0xcafebabe
  · rw [if_pos hmagic] at hv ⊢
    exact readProgram_of_validate_error hp hv
  rw [if_neg hmagic] at hv ⊢
  by_cases hversion : 1 < Header.numberAt s.bytes 4 6
  · rw [if_pos hversion] at hv ⊢
    exact readProgram_of_validate_error hp hv
  rw [if_neg hversion] at hv ⊢
  rw [readProgram_of_validate_ok hf hp hv, (Header.toNat_ofBytes _).2.2.1]
  rfl

/-- Two bytes of code behind a header that is cut into three pieces, the last of which brings the
first of the two. -/
theorem readProgram_of_bytes_in_pieces :
    let s : Source :=
      { pieces :=
          [[0xbe, 0xba, 0xfe], [0xca, 1, 0, 0xaa, 0x55, 2, 0], [0, 0, 9, 0, 0, 0, 4], [0xac]]
        failure := none }
    s.failure = none ∧
      readProgram s =
        .ok { header := ⟨0xcafebabe, 1, 2, 9⟩, code := #[0x04, 0xac] } :=
  ⟨rfl, (readProgram_of_bytes rfl rfl).1.trans rfl⟩

end StackMachine
