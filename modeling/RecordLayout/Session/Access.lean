import RecordLayout.Session.Basic

/-!
# Operations on named streams and records

An operation on records runs on a named stream, perhaps seen in a restricted way, and on a record
under a name or a subject of its own. What it did before failing stays done.

* `StreamView` — how an operation sees a stream;
* `SessionM.onStream` — runs an operation on a named stream;
* `SessionM.alone` — runs an operation that needs no stream;
* `SessionM.onRecord` — keeps what becomes of a named record.
-/

namespace RecordLayout

/-- How an operation sees a stream. -/
inductive StreamView where
  /-- As it is. -/
  | whole
  /-- With room for so many bytes to be written. -/
  | limited (left : Nat)
  /-- Without a way to skip but to read. -/
  | piecewise
  /-- As a copy of what comes after the cursor. -/
  | copied
  deriving DecidableEq, Repr

namespace StreamView

/-- The stream that an operation sees. -/
def enter (view : StreamView) (s : ByteStream) : ByteStream :=
  match view with
  | .whole => s
  | .limited left => .metered left s
  | .piecewise => .piecewise s
  | .copied => .ofBytes (s.content.drop s.position)

/-- The stream as it is after an operation on what it saw. -/
def leave (view : StreamView) (before seen : ByteStream) : ByteStream :=
  match view, seen with
  | .limited _, .metered _ under => under
  | .piecewise, .piecewise under => under
  | .copied, _ => before
  | _, other => other

end StreamView

/-- A named stream, where to start in it, and how to see it. -/
structure StreamPlace where
  name : String
  start : Option Nat
  view : StreamView
  deriving DecidableEq, Repr

/-- What an operation came to. -/
structure Came (τ α : Type) where
  result : Except FormatError α
  subject : τ
  /-- How far the cursor moved. -/
  moved : Nat
  /-- How many bytes the operation left unread. -/
  left : Nat

namespace Session

/-- The stream with a name, with the cursor where an operation starts; a new name stands for an
empty stream. -/
def streamAt (s : Session) (place : StreamPlace) : ByteStream :=
  let stream := (s.streams.lookup place.name).getD .empty
  match place.start with
  | some position => stream.setPosition position
  | none => stream

/-- Gives a stream a name. -/
def setStream (s : Session) (name : String) (stream : ByteStream) : Session :=
  { s with streams := putEntry name stream s.streams }

end Session

namespace SessionM

variable {τ α : Type}

/-- Runs an operation on a named stream. -/
def onStream (place : StreamPlace) (subject : τ) (act : Op τ α) : SessionM (Came τ α) := fun s =>
  let before := s.streamAt place
  let seen := place.view.enter before
  let (result, t) := outcome act ⟨s.space, seen, subject⟩
  let after := place.view.leave before t.stream
  .ok ⟨result, t.subject, t.stream.position - seen.position, t.stream.remaining⟩
    ({ s with space := t.space }.setStream place.name after)

/-- Runs an operation that needs no stream. -/
def alone (subject : τ) (act : Op τ α) : SessionM (Came τ α) := fun s =>
  let (result, t) := outcome act ⟨s.space, .empty, subject⟩
  .ok ⟨result, t.subject, 0, 0⟩ { s with space := t.space }

/-- Runs an operation on a named record and keeps what becomes of it. -/
def onRecord (name : String) (run : Record → SessionM (Came Record α)) :
    SessionM (Came Record α) := do
  let r ← record name
  let came ← run r
  setRecord name came.subject
  pure came

/-- The result of an operation. -/
def result (came : Came τ α) : SessionM α := check came.result

/-- The chunks that a walk found, which are kept for later. -/
def keepFound (came : Came τ (List ChunkId)) : SessionM (List ChunkId) := do
  let chunks ← result came
  modify fun s => { s with found := chunks }
  pure chunks

/-- The chunks that the last walk found, which are then forgotten. -/
def takeFound : SessionM (List ChunkId) := fun s => .ok s.found { s with found := [] }

/-- Changes a named stream. -/
def changeStream (place : StreamPlace) (change : ByteStream → Except StreamError ByteStream) :
    SessionM ByteStream := fun s =>
  match change (s.streamAt place) with
  | .ok stream => .ok stream (s.setStream place.name stream)
  | .error e => .error (.stream e) s

end SessionM

end RecordLayout
