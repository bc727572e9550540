import RecordLayout.Part
import RecordLayout.Value.Basic

/-!
# Parts of records and values

The parts on which operations on records work: a slot of a record, the value or the chunk of a
slot, and the record inside a value.
-/

namespace RecordLayout

namespace Value

/-- The record of a record value or of a wrapped value. -/
def innerRecord : Value → Record
  | .record r => r
  | .wrapped _ carrier => carrier
  | _ => ⟨⟨0, 0⟩, [], []⟩

/-- Replaces the record of a record value or of a wrapped value. -/
def setInnerRecord (r : Record) : Value → Value
  | .record _ => .record r
  | .wrapped wrapper _ => .wrapped wrapper r
  | other => other

/-- The record of a record value or of a wrapped value. -/
def recordPart : Part Value Record := ⟨innerRecord, setInnerRecord⟩

end Value

namespace RecordOf

/-- A slot of a record with the chunk behind it. -/
def slotPart (i : Nat) : Part Record Slot := ⟨fun r => r.slotAt i, fun slot r => r.setSlotAt i slot⟩

/-- The value in a slot of a record. -/
def valuePart (i : Nat) : Part Record Value := ⟨fun r => r.slot i, fun value r => r.setSlot i value⟩

/-- The chunk behind a slot of a record. -/
def chunkPart (i : Nat) : Part Record ChunkId :=
  ⟨fun r => r.chunk i, fun chunk r => { r with chunks := r.chunks.set i chunk }⟩

end RecordOf

namespace Slot

/-- The record of the value of a slot. -/
def recordPart : Part Slot Record :=
  ⟨fun s => s.value.innerRecord, fun r s => { s with value := s.value.setInnerRecord r }⟩

/-- The value of a slot as one that no chunk backs. -/
def loosePart : Part Slot Slot :=
  ⟨fun s => ⟨s.value, .null⟩, fun t s => { s with value := t.value }⟩

end Slot

end RecordLayout
