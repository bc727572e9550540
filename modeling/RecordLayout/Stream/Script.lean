import RecordLayout.Stream.Adapters
import RecordLayout.Stream.Basic

/-!
# Scripts of stream steps

Single steps on a stream as data, and transactions as scripts of steps that may hold further
transactions. A failing step reports its failure and the script goes on.

* `StreamStep.run` — one step on a seekable stream;
* `Transaction.run` — a transaction with everything inside it, and what it reports.
-/

namespace RecordLayout

/-! ## Steps -/

/-- A step that reads. -/
inductive ReadStep where
  | bytes (n : Nat)
  | skip (n : Nat)
  | byte
  | word (width : Nat)
  | u32
  | u64
  | varint
  /-- Bytes whose number came from the stream. -/
  | counted (n : Nat)
  deriving DecidableEq, Repr

/-- A step that writes. -/
inductive WriteStep where
  | bytes (data : Bytes)
  | byte (value : Nat)
  | word (width : Nat) (value : UInt64)
  | u32 (value : Nat)
  | u64 (value : UInt64)
  | varint (value : UInt64)
  deriving DecidableEq, Repr

/-- A step on a seekable stream. -/
inductive StreamStep where
  | read (step : ReadStep)
  | write (step : WriteStep)
  | setPosition (position : Nat)
  | setSize (size : Nat)
  | remaining
  deriving DecidableEq, Repr

/-- What a step answers. -/
inductive StepAnswer where
  | done
  | bytes (data : Bytes)
  | number (value : Nat)
  deriving DecidableEq, Repr

namespace ReadStep

/-- Runs a reading step. -/
def run {σ : Type} [ByteSource σ] : ReadStep → StreamM σ StepAnswer
  | .bytes n => do
    let data ← ByteSource.read n
    pure (.bytes data)
  | .skip n => do
    ByteSource.skip n
    pure .done
  | .byte => do
    let value ← ByteSource.readByte
    pure (.number value.toNat)
  | .word width => do
    let value ← ByteSource.readWord width
    pure (.number value.toNat)
  | .u32 => do
    let value ← ByteSource.readU32
    pure (.number value)
  | .u64 => do
    let value ← ByteSource.readU64
    pure (.number value.toNat)
  | .varint => do
    let value ← ByteSource.readVarint
    pure (.number value.toNat)
  | .counted n => do
    let data ← ByteSource.readBytes n
    pure (.bytes data)

end ReadStep

namespace WriteStep

/-- Runs a writing step. -/
def run {σ : Type} [ByteSink σ] (step : WriteStep) : StreamM σ StepAnswer := do
  match step with
  | .bytes data => ByteSink.write data
  | .byte value => ByteSink.writeByte (UInt8.ofNat value)
  | .word width value => ByteSink.writeWord width value
  | .u32 value => ByteSink.writeU32 value
  | .u64 value => ByteSink.writeU64 value
  | .varint value => ByteSink.writeVarint value
  pure .done

end WriteStep

namespace StreamStep

/-- Runs a step on a seekable stream. -/
def run : StreamStep → StreamM ByteStream StepAnswer
  | .read step => step.run
  | .write step => step.run
  | .setPosition position => fun s => .ok .done (s.setPosition position)
  | .setSize size => fun s => .ok .done (s.setSize size)
  | .remaining => fun s => .ok (.number s.remaining) s

end StreamStep

/-- The answer of a step with the cursor and the size after it. -/
structure StepReport where
  answer : Except StreamError StepAnswer
  position : Nat
  size : Nat

/-- Runs steps in a row. -/
def runSteps : List StreamStep → ByteStream → List StepReport × ByteStream
  | [], s => ([], s)
  | step :: steps, s =>
    let (answer, s) := outcome step.run s
    let (reports, last) := runSteps steps s
    (⟨answer, s.position, s.size⟩ :: reports, last)

/-- Runs steps in a row; `measure` says after each where the stream stands. -/
def runMeasured {σ step : Type} (run : step → StreamM σ StepAnswer) (measure : σ → Nat) :
    List step → σ → List (Except StreamError StepAnswer × Nat) × σ
  | [], s => ([], s)
  | step :: steps, s =>
    let (answer, s) := outcome (run step) s
    let (answers, last) := runMeasured run measure steps s
    ((answer, measure s) :: answers, last)

/-! ## Transactions -/

/-- How a transaction ends. -/
inductive Ending where
  /-- Its changes are applied. -/
  | commit
  /-- Its changes are forgotten. -/
  | drop
  /-- It is a scope, whose changes are applied exactly if the work inside succeeds. -/
  | scope (succeeds : Bool)
  deriving DecidableEq, Repr

mutual

/-- A step inside a transaction. -/
inductive TransactionStep where
  | step (step : StreamStep)
  | nested (inner : Transaction)

/-- A transaction as data. -/
inductive Transaction where
  | mk (steps : List TransactionStep) (ending : Ending)

end

/-- How a transaction ended. -/
inductive EndReport where
  | committed
  | dropped
  /-- A scope succeeded with this many changes held back before they were applied. -/
  | scoped (pending : Nat)
  | failed (error : StreamError)

/-- What a step inside a transaction reports: its answer or an inner transaction's reports, and
the number of changes that the transaction then holds back. -/
inductive TransactionReport where
  | step (report : StepReport) (pending : Nat)
  | nested (steps : List TransactionReport) (ended : EndReport) (pending : Nat)

/-- The failure of a scope that gives up by itself. -/
def scopeAborted : StreamError := .corrupt (.abandoned "abort")

/-- Ends the open transaction. -/
def Ending.close (ending : Ending) (s : ByteStream) : EndReport × ByteStream :=
  let committing (report : EndReport) : EndReport × ByteStream :=
    match ByteStream.commit s with
    | .ok _ s => (report, s)
    | .error e s => (.failed e, s)
  match ending with
  | .commit => committing .committed
  | .drop => (.dropped, s.discard)
  | .scope true => committing (.scoped s.pending)
  | .scope false => (.failed scopeAborted, s.discard)

mutual

/-- Runs a transaction on a stream. -/
def Transaction.run : Transaction → ByteStream → (List TransactionReport × EndReport) × ByteStream
  | .mk steps ending, s =>
    let (reports, s) := TransactionStep.runAll steps s.begin
    let (ended, s) := ending.close s
    ((reports, ended), s)

/-- Runs the steps of an open transaction. -/
def TransactionStep.runAll :
    List TransactionStep → ByteStream → List TransactionReport × ByteStream
  | [], s => ([], s)
  | step :: steps, s =>
    let (report, s) := step.run s
    let (reports, s) := TransactionStep.runAll steps s
    (report :: reports, s)

/-- Runs one step of an open transaction. -/
def TransactionStep.run : TransactionStep → ByteStream → TransactionReport × ByteStream
  | .step step, s =>
    let (answer, s) := outcome step.run s
    (.step ⟨answer, s.position, s.size⟩ s.pending, s)
  | .nested inner, s =>
    let ((reports, ended), s) := inner.run s
    (.nested reports ended s.pending, s)

end

/-- Runs transactions in a row. Each comes with its reports and the stream after it. -/
def Transaction.runInTurn : List Transaction → ByteStream →
    List (List TransactionReport × EndReport × ByteStream)
  | [], _ => []
  | t :: rest, s =>
    let ((reports, ended), s) := t.run s
    (reports, ended, s) :: Transaction.runInTurn rest s

end RecordLayout
