import RecordLayout.Stream.Access

/-!
# Seekable streams

A `ByteStream` is a growable byte string with a cursor, perhaps seen through open transactions or
restrictions:

* `memory` — the bytes themselves. The cursor may stand past the end; a write there fills the gap
  with zeros.
* `edited` — a transaction that is still open. Writes and resizes are held back as `Edits`; reads
  see them on top of the stream below. `ByteStream.commit` applies them in order,
  `ByteStream.discard` forgets them.
* `metered` — refuses a write of more bytes than are left of an allowance.
* `piecewise` — skips by reading.

Reading is defined once for all of them, through `ByteStream.peek`.
-/

namespace RecordLayout

/-! ## Held-back edits -/

/-- One held-back change. -/
inductive Edit where
  /-- Bytes written at an offset. -/
  | write (offset : Nat) (data : Bytes)
  /-- A change of the stream's size. -/
  | resize (size : Nat)
  deriving DecidableEq, Repr

/-- The changes of an open transaction, newest first, with the cursor and the size that the stream
seems to have. -/
structure Edits where
  changes : List Edit
  cursor : Nat
  size : Nat
  deriving DecidableEq, Repr

/-- Bytes cut or filled up with zeros to a length. -/
def resized (bytes : Bytes) (size : Nat) : Bytes :=
  bytes.take size ++ List.replicate (size - bytes.length) 0

/-- Bytes with `data` put in at `offset`, after zeros if the bytes end before. -/
def spliced (bytes : Bytes) (offset : Nat) (data : Bytes) : Bytes :=
  bytes.take offset ++ List.replicate (offset - bytes.length) 0 ++ data
    ++ bytes.drop (offset + data.length)

namespace Edit

/-- What a change makes of a window of the stream that starts at `start`. -/
def onWindow (start : Nat) (change : Edit) (window : Bytes) : Bytes :=
  match change with
  | .write offset data =>
    let low := max start offset
    let high := min (start + window.length) (offset + data.length)
    if low < high then
      window.take (low - start) ++ (data.drop (low - offset)).take (high - low)
        ++ window.drop (high - start)
    else window
  | .resize size => resized (window.take (size - start)) window.length

/-- The size to which a change cuts the stream below, if it does. -/
def limit : Edit → Option Nat
  | .write _ _ => none
  | .resize size => some size

end Edit

namespace Edits

/-- The part of the stream below that no resize has cut off. -/
def visible (e : Edits) (size : Nat) : Nat := (e.changes.filterMap Edit.limit).foldl min size

/-- The window of `n` bytes at `start`, given how to look into the stream below. -/
def view (e : Edits) (size : Nat) (below : Nat → Nat → Bytes) (start n : Nat) : Bytes :=
  let stop := min (start + n) (e.visible size)
  let base := if start < stop then below start (stop - start) else []
  e.changes.foldr (Edit.onWindow start) (resized base n)

/-- Holds back a write at the cursor; a write that goes on where the newest one ended joins it. -/
def write (e : Edits) (data : Bytes) : Edits :=
  if data.isEmpty then e
  else
    let cursor := e.cursor + data.length
    let changes := match e.changes with
      | .write offset held :: older =>
        if offset + held.length = e.cursor then .write offset (held ++ data) :: older
        else .write e.cursor data :: e.changes
      | other => .write e.cursor data :: other
    ⟨changes, cursor, max e.size cursor⟩

/-- Holds back a change of size. -/
def resize (e : Edits) (size : Nat) : Edits := ⟨.resize size :: e.changes, e.cursor, size⟩

end Edits

/-! ## Streams -/

/-- A seekable stream. -/
inductive ByteStream where
  | memory (content : Bytes) (cursor : Nat)
  | edited (under : ByteStream) (edits : Edits)
  | metered (left : Nat) (under : ByteStream)
  | piecewise (under : ByteStream)
  deriving DecidableEq, Repr

namespace ByteStream

/-- A stream over bytes with the cursor at the front. -/
def ofBytes (content : Bytes) : ByteStream := .memory content 0

/-- A stream without bytes. -/
def empty : ByteStream := ofBytes []

instance : Inhabited ByteStream := ⟨empty⟩

/-- Where the cursor stands. -/
def position : ByteStream → Nat
  | .memory _ cursor => cursor
  | .edited _ edits => edits.cursor
  | .metered _ under => under.position
  | .piecewise under => under.position

/-- The number of bytes in the stream. -/
def size : ByteStream → Nat
  | .memory content _ => content.length
  | .edited _ edits => edits.size
  | .metered _ under => under.size
  | .piecewise under => under.size

/-- The number of bytes from the cursor to the end. -/
def remaining (s : ByteStream) : Nat := s.size - s.position

/-- Moves the cursor; it may go past the end. -/
def setPosition (s : ByteStream) (position : Nat) : ByteStream :=
  match s with
  | .memory content _ => .memory content position
  | .edited under edits => .edited under { edits with cursor := position }
  | .metered left under => .metered left (under.setPosition position)
  | .piecewise under => .piecewise (under.setPosition position)

/-- The bytes that stand at an offset, without moving the cursor. -/
def peek : ByteStream → Nat → Nat → Bytes
  | .memory content _, start, n => (content.drop start).take n
  | .edited under edits, start, n => edits.view under.size under.peek start n
  | .metered _ under, start, n => under.peek start n
  | .piecewise under, start, n => under.peek start n

/-- All bytes of the stream. -/
def content (s : ByteStream) : Bytes := s.peek 0 s.size

/-- Cuts the stream or fills it up with zeros to a size; the cursor stays. -/
def setSize (s : ByteStream) (size : Nat) : ByteStream :=
  match s with
  | .memory content cursor => .memory (resized content size) cursor
  | .edited under edits => .edited under (edits.resize size)
  | .metered left under => .metered left (under.setSize size)
  | .piecewise under => .piecewise (under.setSize size)

/-- Writes bytes at the cursor and moves it past them. -/
def put : ByteStream → Bytes → Except StreamError ByteStream
  | .memory content cursor, data =>
    .ok (.memory (spliced content cursor data) (cursor + data.length))
  | .edited under edits, data => .ok (.edited under (edits.write data))
  | .metered left under, data =>
    if left < data.length then .error (.device .full)
    else (under.put data).map (.metered (left - data.length))
  | .piecewise under, data => (under.put data).map .piecewise

/-- Whether skips go through reads. -/
def skipsByReading : ByteStream → Bool
  | .piecewise _ => true
  | .metered _ under => under.skipsByReading
  | _ => false

/-- Moves past `n` bytes, which must be there. -/
def advance (n : Nat) : StreamM ByteStream Unit := fun s =>
  if n ≤ s.remaining then .ok () (s.setPosition (s.position + n))
  else .error (.endOfStream n s.remaining) s

/-- The next `n` bytes. -/
def take (n : Nat) : StreamM ByteStream Bytes := fun s =>
  if n ≤ s.remaining then .ok (s.peek s.position n) (s.setPosition (s.position + n))
  else .error (.endOfStream n s.remaining) s

instance : ByteSource ByteStream where
  read := take
  skip n := fun s => if s.skipsByReading then skipInPieces take n s else advance n s

instance : ByteSink ByteStream where
  write data := fun s => match s.put data with
    | .ok s => .ok () s
    | .error e => .error e s

/-! ## Transactions -/

/-- Opens a transaction with the cursor where it stands. -/
def begin (s : ByteStream) : ByteStream := .edited s ⟨[], s.position, s.size⟩

/-- The number of changes that the open transaction holds back. -/
def pending : ByteStream → Nat
  | .edited _ edits => edits.changes.length
  | _ => 0

/-- Applies a held-back change. -/
def apply (s : ByteStream) : Edit → Except StreamError ByteStream
  | .write offset data => (s.setPosition offset).put data
  | .resize size => .ok (s.setSize size)

/-- Applies held-back changes, the last of the list first. A failure leaves those before it. -/
def applyAll : List Edit → StreamM ByteStream Unit
  | [] => pure ()
  | change :: older => do
    applyAll older
    fun s => match s.apply change with
      | .ok s => .ok () s
      | .error e => .error e s

/-- Ends the open transaction by applying its changes; the cursor stays where it was seen. -/
def commit : StreamM ByteStream Unit := fun s =>
  match s with
  | .edited under edits => match applyAll edits.changes under with
    | .ok _ under => .ok () (under.setPosition edits.cursor)
    | .error e under => .error e under
  | other => .ok () other

/-- Ends the open transaction without applying anything. -/
def discard : ByteStream → ByteStream
  | .edited under _ => under
  | other => other

end ByteStream

end RecordLayout
