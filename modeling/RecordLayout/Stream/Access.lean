import RecordLayout.Number.Varint
import RecordLayout.Part
import RecordLayout.Stream.Error

/-!
# Reading and writing byte streams

A source gives the next bytes or fails; a sink takes bytes or fails. Everything else is built from
these two: words, variable-length numbers, skips, and reads whose length came from the stream.

* `skipInPieces` skips by reading at most 256 bytes at a time, so a failing skip has consumed the
  pieces before the one that failed;
* `readInPieces` reads at most 65536 bytes at a time and reports a failure in terms of the whole
  request.
-/

namespace RecordLayout

/-- An operation on a stream that may fail; what it did before failing stays done. -/
abbrev StreamM (σ : Type) := EStateM StreamError σ

/-! ## Piecewise access -/

/-- Reads exactly `n` bytes and drops them, at most 256 at a time. -/
def skipInPieces {σ : Type} (read : Nat → StreamM σ Bytes) (n : Nat) : StreamM σ Unit :=
  if _h : n = 0 then pure ()
  else do
    let _ ← read (min n 256)
    skipInPieces read (n - min n 256)
termination_by n
decreasing_by omega

/-- Restates the failure of a piece that starts at `start` as one of a request for `total`. -/
def StreamError.ofRequest (total start : Nat) : StreamError → StreamError
  | .endOfStream _ available => .endOfStream total (start + available)
  | other => other

/-- Reads the bytes of a request for `total` from `start` on, at most 65536 at a time. -/
def readInPieces {σ : Type} (read : Nat → StreamM σ Bytes) (total start : Nat) :
    StreamM σ Bytes :=
  if _h : total ≤ start then pure []
  else do
    let step := min (total - start) 65536
    let piece ← failingAs (.ofRequest total start) (read step)
    let rest ← readInPieces read total (start + step)
    pure (piece ++ rest)
termination_by total - start
decreasing_by omega

/-! ## Sources -/

/-- A stream that can be read from front to back. -/
class ByteSource (σ : Type) where
  /-- The next `n` bytes; fails without consuming any if fewer are left. -/
  read : Nat → StreamM σ Bytes
  /-- Moves past `n` bytes. -/
  skip : Nat → StreamM σ Unit := skipInPieces read

namespace ByteSource

variable {σ : Type} [ByteSource σ]

/-- The next byte. -/
def readByte : StreamM σ UInt8 := do
  let bytes ← read 1
  pure (bytes.headD 0)

/-- A little-endian word of `width` bytes, at most eight. -/
def readWord (width : Nat) : StreamM σ UInt64 :=
  if 8 < width then throw (.wordWidth width)
  else do
    let bytes ← read width
    pure (UInt64.ofNat (leValue bytes))

/-- A little-endian word of four bytes. -/
def readU32 : StreamM σ Nat := do
  let bytes ← read 4
  pure (leValue bytes)

/-- A little-endian word of eight bytes. -/
def readU64 : StreamM σ UInt64 := do
  let bytes ← read 8
  pure (UInt64.ofNat (leValue bytes))

/-- Goes on reading a variable-length number of which at most `more` further bytes can come. -/
def continueVarint : Nat → Varint.Decoder → StreamM σ UInt64
  | 0, _ => throw .exhausted
  | more + 1, decoder => do
    let byte ← readByte
    match decoder.push byte with
    | .more next => continueVarint more next
    | .done value => pure value
    | .overflow => throw .varintOverflow

/-- A variable-length number. -/
def readVarint : StreamM σ UInt64 := continueVarint Varint.maxLength .start

/-- The next `n` bytes, where `n` came from the stream and may be far too large. -/
def readBytes (n : Nat) : StreamM σ Bytes := readInPieces read n 0

end ByteSource

/-! ## Sinks -/

/-- A stream that can be written from front to back. -/
class ByteSink (σ : Type) where
  /-- Writes the bytes, all of them or none. -/
  write : Bytes → StreamM σ Unit

namespace ByteSink

variable {σ : Type} [ByteSink σ]

/-- Writes one byte. -/
def writeByte (b : UInt8) : StreamM σ Unit := write [b]

/-- Writes the low `width` bytes of a number, at most eight. -/
def writeWord (width : Nat) (value : UInt64) : StreamM σ Unit :=
  if 8 < width then throw (.wordWidth width) else write (leBytes width value.toNat)

/-- Writes a little-endian word of four bytes. -/
def writeU32 (value : Nat) : StreamM σ Unit := write (leBytes 4 value)

/-- Writes a little-endian word of eight bytes. -/
def writeU64 (value : UInt64) : StreamM σ Unit := write (leBytes 8 value.toNat)

/-- Writes the shortest form of a number. -/
def writeVarint (value : UInt64) : StreamM σ Unit := write (Varint.encode value)

end ByteSink

end RecordLayout
