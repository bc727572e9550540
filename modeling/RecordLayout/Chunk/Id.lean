import RecordLayout.Bytes
import RecordLayout.Number.Width

/-!
# Chunk ids

A chunk is named by a number. Zero names no chunk, so a slot filled with zeros holds no reference.
-/

namespace RecordLayout

/-- The name of a chunk, or zero for none. -/
structure ChunkId where
  id : Nat
  deriving DecidableEq, Repr, Inhabited, Hashable

namespace ChunkId

/-- The id that names no chunk. -/
def null : ChunkId := ⟨0⟩

/-- Whether the id names no chunk. -/
def isNull (c : ChunkId) : Bool := c.id == 0

/-- The number of bytes of a stored id of fixed width. -/
def fixedBytes : Nat := 8

/-- The stored form of fixed width. -/
def encode (c : ChunkId) : Bytes := leBytes fixedBytes c.id

/-- The id that a stored form of fixed width holds. -/
def decode (bytes : Bytes) : Except NumberError ChunkId :=
  if bytes.length = fixedBytes then .ok ⟨leValue bytes⟩
  else .error (.invalidLength fixedBytes bytes.length)

/-- An id as it is shown to readers. -/
def text (c : ChunkId) : String := if c.isNull then "*null" else s!"*{c.id}"

/-- The debug text of an id. -/
def debugText (c : ChunkId) : String :=
  if c.isNull then "ChunkPointer(null)" else s!"ChunkPointer({c.id})"

@[simp] theorem isNull_null : null.isNull = true := rfl

theorem isNull_iff {c : ChunkId} : c.isNull = true ↔ c = null := by
  cases c; simp [isNull, null]

end ChunkId

end RecordLayout
