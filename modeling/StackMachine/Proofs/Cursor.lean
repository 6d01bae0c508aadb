import StackMachine.Proofs.Instruction.Decoding

/-!
# Reading neither skips nor repeats bytes

A cursor is used by one call after the other: reads of different widths, some of which fail, and
questions whether so many bytes are left. `Cursor.callAll` makes such calls, and
`Cursor.callAll_consumes` says what they come to: every read that succeeds consumes the bytes at its
position and every other one none, so that together they consume the bytes from the first position
to the last.

A read is decided by how many bytes are left (`Cursor.read_of_le`, `Cursor.read_of_lt`). What one
call does is then said without a word of its kind: it consumes the bytes between two positions
(`Cursor.Between`), and such stretches can be put together.
-/

namespace StackMachine

namespace Cursor

/-! ### Reads -/

/-- What can be read from a cursor. -/
inductive Read where
  /-- A byte. -/
  | u8
  /-- A signed number of one byte. -/
  | i8
  /-- A signed number of two bytes. -/
  | i16
  /-- As many bytes as it says. -/
  | bytes (n : Nat)
  deriving Repr, DecidableEq

namespace Read

/-- How many bytes are read. -/
def width : Read → Nat
  | .u8 | .i8 => 1
  | .i16 => 2
  | .bytes n => n

theorem width_pos {r : Read} (h : r ≠ .bytes 0) : 0 < r.width := by
  cases r with
  | bytes n => exact Nat.pos_of_ne_zero fun hn => h (congrArg Read.bytes hn)
  | _ => decide

/-- The answers to a read that succeeds. -/
abbrev Answer : Read → Type
  | .u8 => UInt8
  | .i8 => Int8
  | .i16 => Int16
  | .bytes _ => List UInt8

/-- The bytes that an answer stands for. -/
def raw : (r : Read) → r.Answer → List UInt8
  | .u8, b => [b]
  | .i8, v => [v.toUInt8]
  | .i16, v => BigEndian.bytes v
  | .bytes _, bs => bs

end Read

/-- Read from a cursor. -/
def read (c : Cursor) : (r : Read) → Except Shortfall (r.Answer × Cursor)
  | .u8 => c.u8
  | .i8 => c.i8
  | .i16 => c.i16
  | .bytes n => c.bytes n

/-- A read that asks for no more bytes than are left consumes them. -/
theorem read_of_le {c : Cursor} {r : Read} (h : r.width ≤ c.remaining) :
    ∃ a, c.read r = .ok (a, { c with pos := c.pos + r.width }) ∧
      r.raw a = (c.code.extract c.pos (c.pos + r.width)).toList := by
  have hle : r.width = 0 ∨ c.pos + r.width ≤ c.code.size := by
    unfold remaining at h
    omega
  cases r with
  | u8 =>
    obtain ⟨b, hb, hr⟩ := operand_of_le (i := .localIndex) (hle.resolve_left nofun)
    exact ⟨b, hr, hb.toList_extract.symm⟩
  | i8 =>
    obtain ⟨v, hv, hr⟩ := operand_of_le (i := .i8) (hle.resolve_left nofun)
    exact ⟨v, hr, hv.toList_extract.symm⟩
  | i16 =>
    obtain ⟨v, hv, hr⟩ := operand_of_le (i := .i16) (hle.resolve_left nofun)
    exact ⟨v, hr, hv.toList_extract.symm⟩
  | bytes n => exact ⟨_, if_pos (decide_eq_true h), rfl⟩

/-- A read that asks for more bytes than are left fails and says so. -/
theorem read_of_lt {c : Cursor} {r : Read} (h : c.remaining < r.width) :
    c.read r = .error { offset := c.pos, needed := r.width, available := c.remaining } := by
  have hlt : c.code.size < c.pos + r.width := by
    unfold remaining at h
    omega
  cases r with
  | u8 => exact u8_of_le (Nat.le_of_lt_succ hlt)
  | i8 =>
    simp only [read, i8, u8_of_le (Nat.le_of_lt_succ hlt)]
    rfl
  | i16 => exact dif_neg (Nat.not_lt_of_le (Nat.le_of_lt_succ hlt))
  | bytes n => exact if_neg (by simpa [has, Read.width] using h)

/-! ### Calls -/

/-- A call on a cursor. -/
inductive Call where
  /-- To read something. -/
  | read (r : Read)
  /-- To ask whether there are at least `n` bytes left. -/
  | has (n : Nat)
  deriving Repr, DecidableEq

/-- What a call comes to. -/
inductive Response where
  /-- The answer to a read. -/
  | answer (r : Read) (a : r.Answer)
  /-- The failure of a read. -/
  | shortfall (s : Shortfall)
  /-- Whether there are so many bytes left. -/
  | told (b : Bool)

/-- The bytes that were consumed for a response. -/
def Response.raw : Response → List UInt8
  | .answer r a => r.raw a
  | .shortfall _ | .told _ => []

/-- Make a call, and say which cursor is left. A read that fails gives none: it is the old one. -/
def call (c : Cursor) : Call → Response × Cursor
  | .read r =>
    match c.read r with
    | .ok (a, c') => (.answer r a, c')
    | .error s => (.shortfall s, c)
  | .has n => (.told (c.has n), c)

/-- Make one call after the other. -/
def callAll (c : Cursor) : List Call → List Response × Cursor
  | [] => ([], c)
  | call :: calls =>
    let (response, c') := c.call call
    let (responses, last) := c'.callAll calls
    (response :: responses, last)

theorem call_read_of_le {c : Cursor} {r : Read} (h : r.width ≤ c.remaining) :
    ∃ a, c.call (.read r) = (.answer r a, { c with pos := c.pos + r.width }) ∧
      r.raw a = (c.code.extract c.pos (c.pos + r.width)).toList := by
  obtain ⟨a, hr, ha⟩ := read_of_le h
  exact ⟨a, by simp only [call, hr], ha⟩

theorem call_read_of_lt {c : Cursor} {r : Read} (h : c.remaining < r.width) :
    c.call (.read r) =
      (.shortfall { offset := c.pos, needed := r.width, available := c.remaining }, c) := by
  simp only [call, read_of_lt h]

/-- The call to read, by where the read would end. Only behind the end, and only for a read of no
bytes, is this not the same as how many bytes are left. -/
theorem call_read {c : Cursor} {r : Read} (h : c.code.size < c.pos → r ≠ .bytes 0) :
    if c.pos + r.width ≤ c.code.size then
      ∃ a, c.call (.read r) = (.answer r a, { c with pos := c.pos + r.width }) ∧
        r.raw a = (c.code.extract c.pos (c.pos + r.width)).toList
    else
      c.call (.read r) =
        (.shortfall { offset := c.pos, needed := r.width, available := c.remaining }, c) := by
  have hwidth : c.code.size < c.pos → 0 < r.width := fun hpos => Read.width_pos (h hpos)
  have hremaining : c.remaining = c.code.size - c.pos := rfl
  split
  · exact call_read_of_le (by omega)
  · exact call_read_of_lt (by omega)

/-- The response to a call in a row is what the call comes to on the cursor that the calls in front
of it have left. -/
theorem callAll_getElem? {calls : List Call} {k : Nat} {call : Call} (c : Cursor)
    (hk : calls[k]? = some call) :
    (c.callAll calls).1[k]? = some ((c.callAll (calls.take k)).2.call call).1 ∧
      (c.callAll (calls.take (k + 1))).2 = ((c.callAll (calls.take k)).2.call call).2 := by
  induction calls generalizing c k with
  | nil => cases hk
  | cons first calls ih =>
    cases k with
    | zero =>
      cases hk
      exact ⟨rfl, rfl⟩
    | succ k => exact ih (c.call first).2 hk

/-! ### The bytes between two positions -/

/-- The second cursor stands on the same bytes as the first one, and the given bytes are those
between the two. It is not behind the end of the bytes, unless the first one is and the second one
is still in the same place. -/
structure Between (c : Cursor) (bs : List UInt8) (c' : Cursor) : Prop where
  code : c'.code = c.code
  le : c.pos ≤ c'.pos
  le_max : c'.pos ≤ max c.pos c.code.size
  raw : bs = (c.code.extract c.pos c'.pos).toList

theorem Between.refl (c : Cursor) : Between c [] c :=
  ⟨rfl, Nat.le_refl _, Nat.le_max_left .., by simp⟩

theorem Between.trans {c c₁ c₂ : Cursor} {bs cs : List UInt8} (h : Between c bs c₁)
    (h' : Between c₁ cs c₂) : Between c (bs ++ cs) c₂ where
  code := h'.code.trans h.code
  le := Nat.le_trans h.le h'.le
  le_max := by
    have hle := h'.le_max
    rw [h.code] at hle
    exact Nat.le_trans hle (Nat.max_le.2 ⟨h.le_max, Nat.le_max_right ..⟩)
  raw := by
    rw [h.raw, h'.raw, h.code, ← Array.toList_append, Array.extract_append_extract,
      Nat.min_eq_left h.le, Nat.max_eq_right h'.le]

/-- A call consumes the bytes between the cursor and the one that it leaves. -/
theorem between_call (c : Cursor) (call : Call) :
    Between c (c.call call).1.raw (c.call call).2 := by
  cases call with
  | has n => exact .refl c
  | read r =>
    rcases Nat.lt_or_ge c.remaining r.width with hlt | hle
    · rw [call_read_of_lt hlt]
      exact .refl c
    · obtain ⟨a, hcall, ha⟩ := call_read_of_le hle
      rw [hcall]
      refine ⟨rfl, Nat.le_add_right .., ?_, ha⟩
      show c.pos + r.width ≤ max c.pos c.code.size
      unfold remaining at hle
      omega

/-- So does any number of calls. -/
theorem between_callAll (c : Cursor) (calls : List Call) :
    Between c ((c.callAll calls).1.flatMap Response.raw) (c.callAll calls).2 := by
  induction calls generalizing c with
  | nil => exact .refl c
  | cons call calls ih => exact (between_call c call).trans (ih _)

/-- **Reading neither skips nor repeats bytes.** Whatever is called on a cursor, one call after the
other, the bytes consumed are those of the code from the first position to the last, and the last
one is not behind the end unless the first one is and all stay there. A read of `n` bytes succeeds
just if there are `n` bytes behind the position that it is called at, and then it consumes these; if
not, it tells how many there are and leaves the position as it is. Reading no bytes from a position
behind the end is left out. -/
theorem callAll_consumes {code : Code} {start : Nat} {calls : List Call}
    (h : code.size < start → Call.read (.bytes 0) ∉ calls) :
    let c : Cursor := { code, pos := start }
    let responses := (c.callAll calls).1
    let last := (c.callAll calls).2
    last.code = code ∧ start ≤ last.pos ∧ last.pos ≤ max start code.size ∧
      responses.flatMap Response.raw = (code.extract start last.pos).toList ∧
      ∀ k r, calls[k]? = some (.read r) →
        let pos := (c.callAll (calls.take k)).2.pos
        let pos' := (c.callAll (calls.take (k + 1))).2.pos
        if pos + r.width ≤ code.size then
          ∃ a, responses[k]? = some (.answer r a) ∧ pos' = pos + r.width ∧
            r.raw a = (code.extract pos pos').toList
        else
          responses[k]? = some (.shortfall
            { offset := pos, needed := r.width, available := code.size - pos }) ∧ pos' = pos := by
  intro c responses last
  have hall := between_callAll c calls
  refine ⟨hall.code, hall.le, hall.le_max, hall.raw, ?_⟩
  intro k r hk pos pos'
  obtain ⟨hresponse, hafter⟩ := callAll_getElem? c hk
  have hfront := between_callAll c (calls.take k)
  have hcode : (c.callAll (calls.take k)).2.code = code := hfront.code
  -- A cursor behind the end has been there from the start on.
  have hr : code.size < pos → r ≠ .bytes 0 := by
    rintro hpos rfl
    have hmax : pos ≤ max start code.size := hfront.le_max
    exact h (by omega) (List.mem_of_getElem? hk)
  have hcall := call_read (c := (c.callAll (calls.take k)).2) (hcode.symm ▸ hr)
  rw [hcode, remaining, hcode] at hcall
  split at hcall
  case isTrue hle =>
    obtain ⟨a, hcall, ha⟩ := hcall
    rw [hcall] at hresponse hafter
    have hpos' : pos' = pos + r.width := congrArg Cursor.pos hafter
    rw [if_pos hle]
    exact ⟨a, hresponse, hpos', hpos'.symm ▸ ha⟩
  case isFalse hlt =>
    rw [hcall] at hresponse hafter
    rw [if_neg hlt]
    exact ⟨hresponse, congrArg Cursor.pos hafter⟩

/-- A number of two bytes up to the end, and behind it a byte that is not there. -/
theorem callAll_consumes_up_to_the_end :
    let c : Cursor := { code := #[0x11, 0x01, 0xff], pos := 1 }
    let calls : List Call := [.has 2, .read .i16, .read .u8, .read (.bytes 0)]
    (c.code.size < c.pos → Call.read (.bytes 0) ∉ calls) ∧
      (c.callAll calls).1.flatMap Response.raw = [0x01, 0xff] ∧
      (c.callAll calls).1[2]? = some (.shortfall { offset := 3, needed := 1, available := 0 }) ∧
      (c.callAll calls).2.pos ≤ 3 := by
  intro c calls
  have h : c.code.size < c.pos → Call.read (.bytes 0) ∉ calls := fun hlt => absurd hlt (by decide)
  obtain ⟨-, -, hmax, hraw, hreads⟩ := callAll_consumes h
  exact ⟨h, hraw, (hreads 2 .u8 rfl).1, hmax⟩

end Cursor

end StackMachine
