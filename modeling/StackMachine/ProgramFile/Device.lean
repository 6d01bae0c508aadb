/-!
# Sources and sinks

Bytes are read from sources and written to sinks, and both may fail on the way. A source hands out
its bytes in pieces of any size; a reader that has enough does not ask for more, so a failure
behind the bytes it wanted does not reach it. A sink takes bytes while it has room; what still fits
of a piece that does not is taken.
-/

namespace StackMachine

/-- A failure of the device or the system behind a source or a sink, in its own words. -/
structure DeviceError where
  message : String
  deriving Repr, DecidableEq

/-! ### Sources -/

/-- A source of bytes. -/
structure Source where
  /-- What reading hands out, piece by piece. -/
  pieces : List (List UInt8)
  /-- What every read behind the last piece meets, if it does not meet the end. -/
  failure : Option DeviceError
  deriving Repr, DecidableEq

namespace Source

/-- The source that hands out a byte string in one piece and then is at its end. -/
def ofBytes (bytes : List UInt8) : Source := { pieces := [bytes], failure := none }

/-- All the bytes that a source hands out. -/
def bytes (s : Source) : List UInt8 := s.pieces.flatten

/-- Read `n` bytes, or all there are if they are fewer. Nothing is read once there are enough. -/
def take (n : Nat) (s : Source) : Except DeviceError (List UInt8 × Source) :=
  go s.pieces n []
where
  /-- Read `n` more bytes behind the pieces in `done`, which come last one first. -/
  go : List (List UInt8) → Nat → List (List UInt8) → Except DeviceError (List UInt8 × Source)
    | pieces, 0, done => .ok (done.reverse.flatten, { s with pieces })
    | [], _ + 1, done =>
      match s.failure with
      | none => .ok (done.reverse.flatten, { s with pieces := [] })
      | some e => .error e
    | piece :: pieces, n + 1, done =>
      if piece.length ≤ n + 1 then go pieces (n + 1 - piece.length) (piece :: done)
      else
        .ok ((piece.take (n + 1) :: done).reverse.flatten,
          { s with pieces := piece.drop (n + 1) :: pieces })

/-- Read to the end. -/
def readAll (s : Source) : Except DeviceError (List UInt8) :=
  match s.failure with
  | none => .ok s.bytes
  | some e => .error e

end Source

/-! ### Sinks -/

/-- A sink of bytes. -/
structure Sink where
  /-- What the sink has taken. -/
  taken : List UInt8
  /-- How many more bytes it takes, and how it fails then; a sink without this takes all. -/
  limit : Option (Nat × DeviceError)
  deriving Repr, DecidableEq

namespace Sink

/-- The sink that takes everything. -/
def unlimited : Sink := { taken := [], limit := none }

/-- The sink that takes `room` bytes and then fails. -/
def limited (room : Nat) (failure : DeviceError) : Sink :=
  { taken := [], limit := some (room, failure) }

end Sink

/-- Something that writes to a sink. -/
abbrev Writing := EStateM DeviceError Sink

/-- Write a piece; if it does not fit, its beginning is written. -/
def write (piece : List UInt8) : Writing Unit := fun s =>
  match s.limit with
  | none => .ok () { s with taken := s.taken ++ piece }
  | some (room, failure) =>
    if piece.length ≤ room then
      .ok () { taken := s.taken ++ piece, limit := some (room - piece.length, failure) }
    else
      .error failure { taken := s.taken ++ piece.take room, limit := some (0, failure) }

end StackMachine
