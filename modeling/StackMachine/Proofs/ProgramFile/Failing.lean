import StackMachine.Proofs.ProgramFile.Reading

/-!
# Sources that fail

A source may fail anywhere, also where another one would be at its end. What is read from it is then
never a program, and the error never speaks of bytes that are missing or of bytes too many
(`readProgram_of_failing`): nobody knows how many there would have been. Only a header that came out
whole is still judged, because nothing more is read before it is.

The check for trailing bytes is what makes this so. It asks for bytes behind a code that is
complete, so it comes to the failure even if every byte of the file was handed out before.
-/

namespace StackMachine

variable {s : Source} {failure : DeviceError}

/-- A source that fails inside the header is not looked at any further. -/
theorem readProgram_of_failing_header (hf : s.failure = some failure)
    (h : s.bytes.length < Header.size) : readProgram s = .error (.cannotRead failure) := by
  unfold readProgram
  simp only [Source.take_of_failure_eq_some hf h, Except.mapError, bind, Except.bind]

/-- Behind a valid header a source that fails is read until it does: in the code, or where its end
is looked for. -/
theorem readProgram_of_failing_code (hf : s.failure = some failure)
    (hs : Header.size ≤ s.bytes.length) (hv : (Header.ofBytes s.bytes).validate = .ok ()) :
    readProgram s = .error (.cannotRead failure) := by
  obtain ⟨rest, htake, -, hf'⟩ := Source.take_of_le hs
  rw [hf] at hf'
  unfold readProgram
  simp only [htake, Except.mapError, bind, Except.bind, Header.parse_take_size hs, hv]
  rcases readCode_of_failure_eq_some hf' (Header.ofBytes s.bytes).codeLength.toNat #[] with
    hcode | ⟨whole, last, hcode, hsize, hf''⟩
  · rw [hcode]
  · simp only [hcode, if_neg (Nat.not_lt_of_le hsize), Source.readAll_of_failure_eq_some hf'']

/-- A source that fails decides no more than its header, if it has handed it out. -/
theorem readProgram_of_failure_eq_some (hf : s.failure = some failure) :
    readProgram s =
      if s.bytes.length < Header.size then .error (.cannotRead failure)
      else
        match (Header.ofBytes s.bytes).validate with
        | .error cause => .error (.invalidHeader cause)
        | .ok () => .error (.cannotRead failure) := by
  split
  · next hshort => exact readProgram_of_failing_header hf hshort
  · next hlong =>
    have hs := Nat.le_of_not_lt hlong
    split
    · next cause hv => exact readProgram_of_validate_error (Header.parse_take_size hs) hv
    · next hv => exact readProgram_of_failing_code hf hs hv

theorem failure_eq_none_of_readProgram {p : Program} (h : readProgram s = .ok p) :
    s.failure = none := by
  cases hf : s.failure with
  | none => rfl
  | some failure =>
    rw [readProgram_of_failure_eq_some hf] at h
    repeat' split at h
    all_goals cases h

/-- **A source that fails is not mistaken for a file.** If a source hands out the first `k` bytes of
a byte string, in whatever pieces, and then fails, its header is judged if it is whole: first the
magic number and then the version. In all other cases the failure is what is reported, and only
then the error counts as a failure of the device. -/
theorem readProgram_of_failing {b : List UInt8} {k : Nat} {s : Source} {failure : DeviceError}
    (hb : s.bytes = b.take k) (hf : s.failure = some failure) :
    readProgram s =
        (if 16 ≤ min k b.length ∧ Header.numberAt b 0 4 ≠ 0xcafebabe then
          .error (.invalidHeader (.badMagic 0xcafebabe (Header.ofBytes b).magic))
        else if 16 ≤ min k b.length ∧ 1 < Header.numberAt b 4 6 then
          .error (.invalidHeader (.badVersion (Header.ofBytes b).version 1))
        else .error (.cannotRead failure)) ∧
      (∀ p, readProgram s ≠ .ok p) ∧
      (∀ expected actual, readProgram s ≠ .error (.truncatedCode expected actual)) ∧
      (∀ available, readProgram s ≠ .error (.invalidHeader (.truncated available))) ∧
      (∀ declared available,
        readProgram s ≠ .error (.invalidHeader (.badLength declared available))) ∧
      ((∃ e, readProgram s = .error e ∧ e.isDeviceFailure = true) ↔
        readProgram s = .error (.cannotRead failure)) := by
  constructor
  · rw [readProgram_of_failure_eq_some hf, hb, List.length_take, Header.size]
    rcases Nat.lt_or_ge (min k b.length) 16 with hshort | hlong
    · rw [if_pos hshort, if_neg (by omega), if_neg (by omega)]
    · have hk : Header.size ≤ k := Nat.le_trans hlong (Nat.min_le_left ..)
      rw [if_neg (Nat.not_lt_of_le hlong), Header.ofBytes_take b hk, Header.validate_ofBytes]
      simp only [hlong, true_and]
      split_ifs <;> rfl
  · -- A header that is whole can only have a wrong magic number or a wrong version.
    rw [readProgram_of_failure_eq_some hf, Header.validate_ofBytes]
    split_ifs <;> simp [LoadError.isDeviceFailure]

/-- A source that fails where the end of the file should be, after it has handed out all of it. -/
theorem readProgram_of_failing_at_end :
    let b : List UInt8 :=
      [0xbe, 0xba, 0xfe, 0xca, 1, 0, 0, 0, 2, 0, 0, 0, 0, 0, 0, 0, 0x04, 0xac]
    let s : Source := { pieces := [b.take 7, b.drop 7], failure := some ⟨"device failed"⟩ }
    s.bytes = b.take 18 ∧
      readProgram (.ofBytes b) = .ok { header := .ofLength 2, code := #[0x04, 0xac] } ∧
      readProgram s = .error (.cannotRead ⟨"device failed"⟩) := by
  intro b s
  have hb : s.bytes = b.take 18 := rfl
  have hfile : readProgram (.ofBytes b) = .ok { header := .ofLength 2, code := #[0x04, 0xac] } :=
    (readProgram_of_validate_ok rfl rfl rfl).trans rfl
  exact ⟨hb, hfile, (readProgram_of_failing hb rfl).1.trans rfl⟩

end StackMachine
