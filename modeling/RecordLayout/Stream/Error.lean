import RecordLayout.Chunk.Id
import RecordLayout.Number.Width
import RecordLayout.Text.Utf8

/-!
# Failures of streams and chunks

Everything that can go wrong below the level of records: the input ends, a chunk is not live, a
number or text is ill-formed, a device refuses. `StreamError.message` is the text of each.
-/

namespace RecordLayout

/-- Why a device refuses. -/
inductive DeviceFault where
  /-- The device no longer answers. -/
  | gone
  /-- There is no room for the bytes. -/
  | full
  deriving DecidableEq, Repr

/-- Why bytes have no meaning. -/
inductive Corruption where
  /-- The bytes are not text. -/
  | text (error : Utf8.DecodeError)
  /-- A truth value is neither zero nor one. -/
  | boolByte (byte : Nat)
  /-- A presence marker is neither zero nor one. -/
  | presenceMarker (byte : Nat)
  /-- An array would take more bytes than a 64-bit number counts. -/
  | arrayLength (count : Nat)
  /-- A tag says that a value follows, and the reference beside it is null. -/
  | nullReference (what : String)
  /-- Whoever supplies or uses the bytes gave them up, for a reason of its own. -/
  | abandoned (reason : String)
  deriving DecidableEq, Repr

/-- A failure of a stream or of the chunk store. -/
inductive StreamError where
  /-- A read needs more bytes than are left. -/
  | endOfStream (needed available : Nat)
  /-- The chunk was never allocated or is already free. -/
  | chunkNotFound (chunk : ChunkId)
  /-- A variable-length number needs more than 64 bits. -/
  | varintOverflow
  /-- The bytes have no meaning. -/
  | corrupt (why : Corruption)
  /-- A word has more than eight bytes. -/
  | wordWidth (width : Nat)
  /-- The device refuses. -/
  | device (fault : DeviceFault)
  /-- A number is not what it should be. -/
  | number (error : NumberError)
  /-- More bytes of a number were taken than it can have; no read comes to that. -/
  | exhausted
  deriving DecidableEq, Repr

namespace DeviceFault

/-- The text of a device fault. -/
def message : DeviceFault → String
  | .gone => "device gone (TimedOut)"
  | .full => "device full (WriteZero)"

end DeviceFault

namespace Corruption

/-- The text of a corruption. -/
def message : Corruption → String
  | .text error => "invalid utf-8: " ++ error.message
  | .boolByte b => s!"bool byte {b}"
  | .presenceMarker b => s!"presence marker {b}"
  | .arrayLength n => s!"array length {n} overflows"
  | .nullReference what => what ++ " with a null pointer"
  | .abandoned reason => reason

end Corruption

namespace StreamError

/-- The text of a stream failure. -/
def message : StreamError → String
  | .endOfStream needed available =>
    s!"unexpected end of stream: needed {needed} bytes, {available} available"
  | .chunkNotFound chunk => "chunk not found: " ++ chunk.text
  | .varintOverflow => "corrupt varint: varint overflow"
  | .corrupt why => "corrupt data: " ++ why.message
  | .wordWidth width => s!"unsupported word width: {width} bytes"
  | .device fault => "I/O error: " ++ fault.message
  | .number error => error.message
  | .exhausted => "number without an end"

end StreamError

end RecordLayout
