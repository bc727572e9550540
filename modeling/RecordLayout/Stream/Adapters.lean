import RecordLayout.Stream.Access

/-!
# Sources and sinks over plain bytes

The simplest streams: bytes that are consumed from the front, bytes that are appended to, and
streams that restrict or count another one.
-/

namespace RecordLayout

/-! ## Bytes consumed from the front -/

/-- Takes `n` bytes from the front. -/
def Bytes.takeFront (n : Nat) : StreamM Bytes Bytes := fun bytes =>
  if n ≤ bytes.length then .ok (bytes.take n) (bytes.drop n)
  else .error (.endOfStream n bytes.length) bytes

/-- Bytes are read from the front and skipped in one step. -/
instance : ByteSource Bytes where
  read := Bytes.takeFront
  skip n := do
    let _ ← Bytes.takeFront n

/-- Bytes are written at the end. -/
instance : ByteSink Bytes where
  write bytes := modify (· ++ bytes)

/-! ## Restricted and counting streams -/

/-- Bytes that can only be read; skips go through reads. -/
structure ReadOnly where
  rest : Bytes

instance : ByteSource ReadOnly where
  read n := fun s => match Bytes.takeFront n s.rest with
    | .ok bytes rest => .ok bytes ⟨rest⟩
    | .error e rest => .error e ⟨rest⟩

/-- Bytes behind a device that fails for good once a read asks for more than is left of its
allowance. -/
structure Failing where
  allowance : Nat
  rest : Bytes

instance : ByteSource Failing where
  read n := fun s =>
    if s.allowance < n then .error (.device .gone) s
    else match Bytes.takeFront n s.rest with
      | .ok bytes rest => .ok bytes ⟨s.allowance - n, rest⟩
      | .error e rest => .error e ⟨s.allowance - n, rest⟩

/-- A stream and the number of bytes that went through it. -/
structure Counted (σ : Type) where
  inner : σ
  count : Nat

namespace Counted

variable {σ : Type}

/-- Runs an operation on the inner stream and, if it succeeds, counts `n` bytes. -/
def through {α : Type} (n : Nat) (act : StreamM σ α) : StreamM (Counted σ) α := fun s =>
  match act s.inner with
  | .ok a inner => .ok a ⟨inner, s.count + n⟩
  | .error e inner => .error e ⟨inner, s.count⟩

instance [ByteSource σ] : ByteSource (Counted σ) where
  read n := through n (ByteSource.read n)
  skip n := through n (ByteSource.skip n)

instance [ByteSink σ] : ByteSink (Counted σ) where
  write bytes := through bytes.length (ByteSink.write bytes)

end Counted

end RecordLayout
