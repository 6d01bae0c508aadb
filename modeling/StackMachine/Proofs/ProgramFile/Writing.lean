import StackMachine.Proofs.ProgramFile.Reading

/-!
# Files that were cut off

A sink sees the bytes that are written and not the pieces that these come in: writing one piece and
then another is writing both at once (`write_append`), and a sink that takes a piece in parts is
left with the same (`writeInParts_eq_write`). So a program goes out as one byte string, and where
the sink fails, what it has taken is the beginning of the file, as far as its room goes. No such
beginning is read as a program unless it is the whole file, and the reader tells how much of it is
there (`readProgram_of_cut_off`).
-/

namespace StackMachine

/-! ### Pieces -/

section Pieces

variable {taken piece : List UInt8} {room : Nat} {failure : DeviceError}

theorem write_of_le (h : piece.length ≤ room) :
    write piece { taken, limit := some (room, failure) } =
      .ok () { taken := taken ++ piece, limit := some (room - piece.length, failure) } :=
  if_pos h

theorem write_of_lt (h : room < piece.length) :
    write piece { taken, limit := some (room, failure) } =
      .error failure { taken := taken ++ piece.take room, limit := some (0, failure) } :=
  if_neg (Nat.not_le_of_lt h)

theorem write_bind_of_ok {f : Unit → Writing Unit} {s s' : Sink} (h : write piece s = .ok () s') :
    (write piece >>= f) s = f () s' := by
  show EStateM.bind (write piece) f s = f () s'
  rw [EStateM.bind, h]

theorem write_bind_of_error {f : Unit → Writing Unit} {s s' : Sink}
    (h : write piece s = .error failure s') : (write piece >>= f) s = .error failure s' := by
  show EStateM.bind (write piece) f s = .error failure s'
  rw [EStateM.bind, h]

theorem write_nil : write [] = pure () := by
  funext s
  obtain ⟨taken, _ | ⟨room, failure⟩⟩ := s <;> simp [write, pure, EStateM.pure]

/-- Two pieces one after the other are written like one. -/
theorem write_append (p q : List UInt8) : write (p ++ q) = write p >>= fun _ => write q := by
  funext s
  obtain ⟨taken, _ | ⟨room, failure⟩⟩ := s
  · simp [write, bind, EStateM.bind]
  have hlength : (p ++ q).length = p.length + q.length := List.length_append
  -- The room ends inside the first piece, inside the second one, or behind both.
  rcases Nat.lt_or_ge room p.length with hp | hp
  · rw [write_bind_of_error (write_of_lt hp), write_of_lt (by omega),
      List.take_append_of_le_length (Nat.le_of_lt hp)]
  rw [write_bind_of_ok (write_of_le hp)]
  rcases Nat.lt_or_ge (room - p.length) q.length with hq | hq
  · rw [write_of_lt (by omega), write_of_lt hq, List.take_append, List.take_of_length_le hp,
      List.append_assoc]
  · rw [write_of_le (by omega), write_of_le hq, List.append_assoc, hlength, Nat.sub_sub]

theorem forM_write (pieces : List (List UInt8)) : pieces.forM write = write pieces.flatten := by
  induction pieces with
  | nil => exact write_nil.symm
  | cons piece pieces ih =>
    show (write piece >>= fun _ => pieces.forM write) = _
    rw [ih, List.flatten_cons, write_append]

end Pieces

/-! ### Parts of a piece -/

/-- How many bytes behind the first a sink takes at once if it would take `wanted` of them: as many
as there is room for. -/
def Sink.more (s : Sink) (wanted : Nat) : Nat :=
  match s.limit with
  | none => wanted
  | some (room, _) => min wanted (room - 1)

/-- Write a piece to a sink that takes it part by part: a byte and, as far as there is room, as many
more as `width` says of the bytes that were taken before. Without room for a byte the sink fails. -/
def writeInParts (width : List UInt8 → Nat) : (piece : List UInt8) → Writing Unit
  | [] => pure ()
  | b :: rest => fun s =>
    match s.limit with
    | some (0, failure) => .error failure s
    | _ =>
      (write (b :: rest.take (s.more (width s.taken))) >>= fun _ =>
        writeInParts width (rest.drop (s.more (width s.taken)))) s
termination_by piece => piece.length
decreasing_by
  rw [List.length_drop, List.length_cons]
  omega

/-- In whatever parts a sink takes a piece, it is left with the same. -/
theorem writeInParts_eq_write (width : List UInt8 → Nat) : writeInParts width = write := by
  funext piece
  induction h : piece.length using Nat.strong_induction_on generalizing piece with
  | _ n ih =>
    subst h
    cases piece with
    | nil => rw [writeInParts, write_nil]
    | cons b rest =>
      -- However long the part is, the rest of the piece is written behind it.
      have hcut (k : Nat) :
          (write (b :: rest.take k) >>= fun _ => writeInParts width (rest.drop k)) =
            write (b :: rest) := by
        have hlt : (rest.drop k).length < (b :: rest).length := by
          rw [List.length_drop, List.length_cons]
          omega
        rw [ih _ hlt _ rfl, ← write_append, List.cons_append, List.take_append_drop]
      funext s
      obtain ⟨taken, limit⟩ := s
      unfold writeInParts
      split
      · next failure hlimit =>
        obtain rfl : limit = some (0, failure) := hlimit
        rw [write_of_lt (Nat.succ_pos rest.length), List.take_zero, List.append_nil]
      · rw [hcut]

/-! ### The file -/

namespace Header

theorem length_flatten_pieces (h : Header) : h.pieces.flatten.length = size := by
  simp [pieces, size]

/-- The fields that are written one after the other are the header. -/
theorem flatten_pieces (h : Header) : h.pieces.flatten = h.toBytes := by
  simp [pieces, toBytes, overwrite, LittleEndian.bytes, size]

theorem length_toBytes (h : Header) : h.toBytes.length = size := by
  rw [← flatten_pieces, length_flatten_pieces]

/-- The numbers in the bytes of a header are its fields, whatever stands behind it. -/
theorem numberAt_toBytes_append (h : Header) (rest : List UInt8) :
    numberAt (h.toBytes ++ rest) 0 4 = h.magic.toNat ∧
      numberAt (h.toBytes ++ rest) 4 6 = h.version.toNat ∧
      numberAt (h.toBytes ++ rest) 8 12 = h.codeLength.toNat ∧
      numberAt (h.toBytes ++ rest) 12 16 = h.entryPoint.toNat := by
  -- The bytes of the fields stand at fixed places, so cutting them out is by computation.
  show LittleEndian.value (LittleEndian.bytes 4 h.magic.toNat) = _ ∧
    LittleEndian.value (LittleEndian.bytes 2 h.version.toNat) = _ ∧
    LittleEndian.value (LittleEndian.bytes 4 h.codeLength.toNat) = _ ∧
    LittleEndian.value (LittleEndian.bytes 4 h.entryPoint.toNat) = _
  exact ⟨LittleEndian.value_bytes h.magic.toNat_lt, LittleEndian.value_bytes h.version.toNat_lt,
    LittleEndian.value_bytes h.codeLength.toNat_lt, LittleEndian.value_bytes h.entryPoint.toNat_lt⟩

theorem ofBytes_toBytes_append (h : Header) (rest : List UInt8) :
    ofBytes (h.toBytes ++ rest) = h := by
  obtain ⟨hmagic, hversion, hlength, hentry⟩ := h.numberAt_toBytes_append rest
  rw [ofBytes, hmagic, hversion, hlength, hentry]
  simp

theorem size_le_length_toBytes_append (h : Header) (rest : List UInt8) :
    size ≤ (h.toBytes ++ rest).length := by
  rw [List.length_append, length_toBytes]
  exact Nat.le_add_right _ _

/-- A header that was written is read again. -/
theorem parse_toBytes_append (h : Header) (rest : List UInt8) :
    parse ((h.toBytes ++ rest).take size) = .ok h := by
  rw [parse_take_size (h.size_le_length_toBytes_append rest), ofBytes_toBytes_append]

theorem validate_ofLength (codeLength : UInt32) : (ofLength codeLength).validate = .ok () := rfl

end Header

/-- The bytes of the file of a program: its header and its code. -/
def fileBytes (code : Code) : List UInt8 :=
  (Header.ofLength (.ofNat code.size)).toBytes ++ code.toList

theorem length_fileBytes (code : Code) : (fileBytes code).length = 16 + code.size := by
  rw [fileBytes, List.length_append, Header.length_toBytes, Array.length_toList]
  rfl

/-- A program is written as the bytes of its file. -/
theorem writeProgram_eq {code : Code} (hc : code.size ≤ 2 ^ 32 - 1) (sink : Sink) :
    writeProgram code sink =
      match write (fileBytes code) sink with
      | .ok _ sink => (.ok (), sink)
      | .error cause sink => (.error (.cannotWrite cause), sink) := by
  have hlength : ¬ 0x100000000 ≤ code.size := by omega
  have hwrite : ((Header.ofLength (.ofNat code.size)).write >>= fun _ => write code.toList) =
      write (fileBytes code) := by
    rw [Header.write, forM_write, Header.flatten_pieces, ← write_append, fileBytes]
  unfold writeProgram
  rw [if_neg hlength]
  show (match ((Header.ofLength (.ofNat code.size)).write >>= fun _ => write code.toList) sink with
    | .ok _ sink => _
    | .error cause sink => _) = _
  rw [hwrite]

/-- A sink with room for the file takes it whole. -/
theorem writeProgram_of_le {code : Code} (hc : code.size ≤ 2 ^ 32 - 1) {r : Nat}
    (failure : DeviceError) (h : 16 + code.size ≤ r) :
    writeProgram code (.limited r failure) =
      (.ok (), { taken := fileBytes code, limit := some (r - (16 + code.size), failure) }) := by
  have hle : (fileBytes code).length ≤ r := by rwa [length_fileBytes]
  rw [writeProgram_eq hc, Sink.limited, write_of_le hle, length_fileBytes]
  rfl

/-- A sink without room for the file takes its beginning and fails. -/
theorem writeProgram_of_lt {code : Code} (hc : code.size ≤ 2 ^ 32 - 1) {r : Nat}
    (failure : DeviceError) (h : r < 16 + code.size) :
    writeProgram code (.limited r failure) =
      (.error (.cannotWrite failure),
        { taken := (fileBytes code).take r, limit := some (0, failure) }) := by
  have hlt : r < (fileBytes code).length := by rwa [length_fileBytes]
  rw [writeProgram_eq hc, Sink.limited, write_of_lt hlt]
  rfl

/-! ### Its beginnings -/

/-- A file that was cut off is read as a program only if nothing is missing. -/
theorem readProgram_of_cut_off {code : Code} (hc : code.size ≤ 2 ^ 32 - 1) (r : Nat) {s : Source}
    (hf : s.failure = none) (hb : s.bytes = (fileBytes code).take r) :
    readProgram s =
      if r < 16 then .error (.invalidHeader (.truncated r))
      else if r < 16 + code.size then .error (.truncatedCode code.size (r - 16))
      else .ok { header := .ofLength (.ofNat code.size), code } := by
  have hlength : s.bytes.length = min r (16 + code.size) := by
    rw [hb, List.length_take, length_fileBytes]
  rcases Nat.lt_or_ge r 16 with hr | hr
  · have hshort : s.bytes.length = r := by omega
    have hall : s.bytes.take Header.size = s.bytes :=
      List.take_of_length_le (by rw [hshort]; exact Nat.le_of_lt hr)
    rw [if_pos hr]
    refine readProgram_of_parse_error hf ?_
    rw [hall, Header.parse_of_lt (hshort ▸ hr), hshort]
  · -- The header is whole, so what is missing is missing from the code.
    have hp : Header.parse (s.bytes.take Header.size) =
        .ok (.ofLength (.ofNat code.size)) := by
      have htake : s.bytes.take Header.size = (fileBytes code).take Header.size := by
        rw [hb, List.take_take]
        exact congrArg (List.take · (fileBytes code)) (Nat.min_eq_left hr)
      rw [htake, fileBytes, Header.parse_toBytes_append]
    have hcode : (Header.ofLength (.ofNat code.size)).codeLength.toNat = code.size :=
      UInt32.toNat_ofNat_of_lt' (by simp only [UInt32.size]; omega)
    have hsub : s.bytes.length - Header.size = min (r - 16) code.size := by
      rw [hlength, Header.size]
      omega
    rw [if_neg (Nat.not_lt_of_le hr), readProgram_of_validate_ok hf hp (Header.validate_ofLength _),
      hcode, hsub]
    by_cases hcut : r < 16 + code.size
    · rw [if_pos hcut, if_pos (by omega), Nat.min_eq_left (by omega)]
    · have hfile : (s.bytes.drop Header.size).toArray = code := by
        rw [hb, List.take_of_length_le (by rw [length_fileBytes]; omega), fileBytes,
          ← Header.length_toBytes (.ofLength (.ofNat code.size)), List.drop_left,
          Array.toArray_toList]
      rw [if_neg hcut, if_neg (by omega), if_neg (by omega), hfile]

/-- **What a failing sink is left with is no program.** A sink that takes `r` bytes and then fails
is handed the first `r` bytes of the file, and the writer says that it failed just if these are not
all; it does not matter in which parts the sink takes what it takes. Read again, from a source that
hands them out in whatever pieces, these bytes are a program only if none is missing; if not, the
error tells how many there are of the header, or of the code. -/
theorem writeProgram_cut_off {code : Code} (hc : code.size ≤ 2 ^ 32 - 1) (r : Nat)
    (failure : DeviceError) :
    (∀ width, writeInParts width = write) ∧
      (writeProgram code (.limited r failure)).2.taken =
        ((Header.ofLength (.ofNat code.size)).toBytes ++ code.toList).take r ∧
      (writeProgram code (.limited r failure)).2.taken.length = min r (16 + code.size) ∧
      ((writeProgram code (.limited r failure)).1 = .error (.cannotWrite failure) ↔
        r < 16 + code.size) ∧
      ((writeProgram code (.limited r failure)).1 = .ok () ↔ 16 + code.size ≤ r) ∧
      ∀ s : Source, s.failure = none →
        s.bytes = (writeProgram code (.limited r failure)).2.taken →
        readProgram s =
          if r < 16 then .error (.invalidHeader (.truncated r))
          else if r < 16 + code.size then .error (.truncatedCode code.size (r - 16))
          else .ok { header := .ofLength (.ofNat code.size), code } := by
  have hlength := length_fileBytes code
  rcases Nat.lt_or_ge r (16 + code.size) with hlt | hle
  · rw [writeProgram_of_lt hc failure hlt]
    refine ⟨writeInParts_eq_write, rfl, ?_, iff_of_true rfl hlt,
      iff_of_false nofun (Nat.not_le_of_lt hlt), ?_⟩
    · rw [List.length_take, hlength]
    · intro s hf hb
      exact readProgram_of_cut_off hc r hf hb
  · have hall : (fileBytes code).take r = fileBytes code :=
      List.take_of_length_le (by rwa [hlength])
    rw [writeProgram_of_le hc failure hle]
    refine ⟨writeInParts_eq_write, hall.symm, ?_,
      iff_of_false nofun (Nat.not_lt_of_le hle), iff_of_true rfl hle, ?_⟩
    · rw [hlength, Nat.min_eq_right hle]
    · intro s hf hb
      exact readProgram_of_cut_off hc r hf (hb.trans hall.symm)

/-- The last of three bytes of code does not fit. -/
theorem writeProgram_cut_off_one_missing :
    let code : Code := #[0x04, 0x05, 0x60]
    let written := writeProgram code (.limited 18 ⟨"device full"⟩)
    code.size ≤ 2 ^ 32 - 1 ∧ written.2.taken.length = 18 ∧
      written.1 = .error (.cannotWrite ⟨"device full"⟩) ∧
      readProgram (.ofBytes written.2.taken) = .error (.truncatedCode 3 2) := by
  intro code written
  have hc : code.size ≤ 2 ^ 32 - 1 := by decide
  obtain ⟨-, -, hlength, herror, -, hread⟩ := writeProgram_cut_off hc 18 ⟨"device full"⟩
  refine ⟨hc, hlength, herror.2 (by decide), ?_⟩
  exact hread (.ofBytes written.2.taken) rfl (List.append_nil _)

end StackMachine
