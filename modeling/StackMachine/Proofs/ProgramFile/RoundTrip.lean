import StackMachine.Proofs.ProgramFile.Failing
import StackMachine.Proofs.ProgramFile.Writing

/-!
# Saving and loading

Saving and loading undo each other (`save_load_inverse`). A code that is saved is loaded again as it
was. A file that is loaded and saved again may come out different, as the header that is written has
the newest version, no padding and no entry point, but it does so in the bytes of these fields only
(`normalized`), and doing it once more changes nothing.

Which byte strings are files is what `IsProgramFile` says; they are those that are read
(`readProgram_eq_ok_iff`).
-/

namespace StackMachine

/-! ### Files that are read -/

/-- The byte string is a program file: a valid header, and behind it as many bytes as it says. -/
structure IsProgramFile (b : List UInt8) : Prop where
  size_le : Header.size ≤ b.length
  valid : (Header.ofBytes b).validate = .ok ()
  length : b.length - Header.size = (Header.ofBytes b).codeLength.toNat

/-- The program in a file. -/
def Program.ofBytes (b : List UInt8) : Program where
  header := .ofBytes b
  code := (b.drop Header.size).toArray

/-- **What is read is a file**, from a source that comes to its end. -/
theorem readProgram_eq_ok_iff {s : Source} {p : Program} :
    readProgram s = .ok p ↔ s.failure = none ∧ IsProgramFile s.bytes ∧ p = .ofBytes s.bytes := by
  constructor
  · intro h
    have hf := failure_eq_none_of_readProgram h
    rcases Nat.lt_or_ge s.bytes.length Header.size with hshort | hs
    · rw [readProgram_of_parse_error hf
        (by rw [List.take_of_length_le (Nat.le_of_lt hshort), Header.parse_of_lt hshort])] at h
      cases h
    have hp := Header.parse_take_size hs
    cases hv : (Header.ofBytes s.bytes).validate with
    | error e =>
      rw [readProgram_of_validate_error hp hv] at h
      cases h
    | ok =>
      rw [readProgram_of_validate_ok hf hp hv] at h
      split_ifs at h with hless hmore
      cases h
      exact ⟨hf, ⟨hs, hv, by omega⟩, rfl⟩
  · rintro ⟨hf, ⟨hs, hv, hlength⟩, rfl⟩
    rw [readProgram_of_validate_ok hf (Header.parse_take_size hs) hv, hlength,
      if_neg (Nat.lt_irrefl _), if_neg (Nat.lt_irrefl _)]
    rfl

/-! ### Loading what was saved -/

/-- A sink that takes everything is left with the bytes of the file. -/
theorem writeProgram_unlimited {code : Code} (hc : code.size ≤ 2 ^ 32 - 1) :
    writeProgram code .unlimited = (.ok (), { taken := fileBytes code, limit := none }) := by
  rw [writeProgram_eq hc]
  rfl

theorem readProgram_of_fileBytes {code : Code} (hc : code.size ≤ 2 ^ 32 - 1) {s : Source}
    (hf : s.failure = none) (hb : s.bytes = fileBytes code) :
    readProgram s = .ok { header := .ofLength (.ofNat code.size), code } := by
  have hall : s.bytes = (fileBytes code).take (16 + code.size) := by
    rw [hb, ← length_fileBytes, List.take_length]
  rw [readProgram_of_cut_off hc _ hf hall, if_neg (by omega), if_neg (by omega)]

/-! ### Saving what was loaded -/

/-- A file with the header that would have been written for its code: with the newest version,
without padding and without an entry point. -/
def normalized (file : List UInt8) : List UInt8 :=
  file.take 4 ++ [1, 0, 0, 0] ++ (file.take 12).drop 8 ++ [0, 0, 0, 0] ++ file.drop 16

namespace Header

/-- The bytes of a number are those that it was read from. -/
theorem bytes_numberAt {b : List UInt8} (start stop : Nat) (h : stop ≤ b.length) :
    LittleEndian.bytes (stop - start) (numberAt b start stop) = (b.take stop).drop start := by
  have hlength : ((b.take stop).drop start).length = stop - start := by
    rw [List.length_drop, List.length_take_of_le h]
  rw [← hlength]
  exact LittleEndian.bytes_value _

theorem magic_of_validate {h : Header} (hv : h.validate = .ok ()) : h.magic = magicNumber := by
  unfold validate at hv
  split_ifs at hv with hmagic
  exact not_ne_iff.1 hmagic

end Header

namespace IsProgramFile

variable {b : List UInt8} (h : IsProgramFile b)

include h

/-- The header says how long the code is. -/
theorem toNat_codeLength :
    (Program.ofBytes b).header.codeLength.toNat = (Program.ofBytes b).code.size := by
  rw [Program.ofBytes, List.size_toArray, List.length_drop, h.length]

theorem code_size_le : (Program.ofBytes b).code.size ≤ 2 ^ 32 - 1 := by
  rw [← h.toNat_codeLength]
  exact Nat.le_pred_of_lt (UInt32.toNat_lt _)

/-- What is saved of a file that was loaded is its normalized form. -/
theorem fileBytes_eq : fileBytes (Program.ofBytes b).code = normalized b := by
  have hs : 16 ≤ b.length := h.size_le
  obtain ⟨hmagic, -, hlength, -⟩ := Header.toNat_ofBytes b
  have hmagic : LittleEndian.bytes 4 Header.magicNumber.toNat = b.take 4 := by
    rw [← Header.magic_of_validate h.valid, hmagic]
    exact Header.bytes_numberAt 0 4 (Nat.le_trans (by decide) hs)
  have hlength : LittleEndian.bytes 4 (Header.ofBytes b).codeLength.toNat =
      (b.take 12).drop 8 := by
    rw [hlength]
    exact Header.bytes_numberAt 8 12 (Nat.le_trans (by decide) hs)
  have hsize : UInt32.ofNat (Program.ofBytes b).code.size = (Header.ofBytes b).codeLength := by
    rw [← h.toNat_codeLength, UInt32.ofNat_toNat]
    rfl
  calc fileBytes (Program.ofBytes b).code
    _ = (Header.ofLength (Header.ofBytes b).codeLength).pieces.flatten ++ b.drop 16 := by
      rw [fileBytes, hsize, Header.flatten_pieces]
      rfl
    _ = normalized b := by
      simp only [Header.pieces, Header.ofLength, hmagic, hlength, List.flatten_cons,
        List.append_assoc, normalized]
      rfl

end IsProgramFile

/-- **Saving and loading are inverse to each other**, but for the fields of a header that say
nothing about the code. A code that is saved is loaded again as it was, with a header of its length,
of the newest version and without an entry point. The header of a file that is loaded says how long
the code is, and saving the code gives the file back in its normalized form; loading and saving this
form gives it again. -/
theorem save_load_inverse :
    (∀ code : Code, code.size ≤ 2 ^ 32 - 1 →
      ∃ file, writeProgram code .unlimited = (.ok (), { taken := file, limit := none }) ∧
        ∀ s : Source, s.failure = none → s.bytes = file →
          ∃ p, readProgram s = .ok p ∧ p.code = code ∧ p.header.codeLength.toNat = code.size ∧
            p.header.version = 1 ∧ p.header.entryPoint = 0) ∧
    ∀ (file : List UInt8) (s : Source) (p : Program), s.bytes = file → readProgram s = .ok p →
      16 ≤ file.length ∧ p.header.codeLength.toNat = p.code.size ∧
      ∃ file', writeProgram p.code .unlimited = (.ok (), { taken := file', limit := none }) ∧
        file' = normalized file ∧
        ∀ s' : Source, s'.failure = none → s'.bytes = file' →
          ∃ p', readProgram s' = .ok p' ∧ p'.code = p.code ∧
            writeProgram p'.code .unlimited = (.ok (), { taken := file', limit := none }) := by
  constructor
  · intro code hc
    refine ⟨_, writeProgram_unlimited hc, ?_⟩
    intro s hf hb
    refine ⟨_, readProgram_of_fileBytes hc hf hb, rfl, ?_, rfl, rfl⟩
    exact UInt32.toNat_ofNat_of_lt' (by simp only [UInt32.size]; omega)
  · rintro _ s p rfl hread
    obtain ⟨-, h, rfl⟩ := readProgram_eq_ok_iff.1 hread
    have hwrite := writeProgram_unlimited h.code_size_le
    refine ⟨h.size_le, h.toNat_codeLength, _, hwrite, h.fileBytes_eq, ?_⟩
    intro s' hf' hb'
    exact ⟨_, readProgram_of_fileBytes h.code_size_le hf' hb', rfl, hwrite⟩

/-- A file of an old version, with something in its padding and an entry point, loaded and saved,
and what was saved loaded again. -/
theorem save_load_inverse_old_version :
    let code : Code := #[0x04, 0xac]
    let file : List UInt8 :=
      [0xbe, 0xba, 0xfe, 0xca, 0, 0, 0xaa, 0x55, 2, 0, 0, 0, 9, 0, 0, 0, 0x04, 0xac]
    let file' : List UInt8 :=
      [0xbe, 0xba, 0xfe, 0xca, 1, 0, 0, 0, 2, 0, 0, 0, 0, 0, 0, 0, 0x04, 0xac]
    readProgram (.ofBytes file) = .ok { header := ⟨0xcafebabe, 0, 2, 9⟩, code } ∧
      writeProgram code .unlimited = (.ok (), { taken := file', limit := none }) ∧
      ∃ p, readProgram (.ofBytes file') = .ok p ∧ p.code = code ∧ p.header.entryPoint = 0 := by
  intro code file file'
  have hread : readProgram (.ofBytes file) = .ok { header := ⟨0xcafebabe, 0, 2, 9⟩, code } :=
    (readProgram_of_validate_ok rfl rfl rfl).trans rfl
  obtain ⟨-, -, _, hwrite, rfl, -⟩ := save_load_inverse.2 file _ _ rfl hread
  obtain ⟨saved, hsave, hload⟩ := save_load_inverse.1 code (by decide)
  obtain rfl : normalized file = saved :=
    congrArg (fun result => result.2.taken) (hwrite.symm.trans hsave)
  obtain ⟨p, hp, hcode, -, -, hentry⟩ := hload (.ofBytes file') rfl rfl
  exact ⟨hread, hwrite, p, hp, hcode, hentry⟩

end StackMachine
