import RecordLayout.Chunk.Id
import RecordLayout.Schema.Type
import RecordLayout.Value.Scalar

/-!
# Values and records

A record holds one value per field of its schema and, beside each, the chunk that backs the value
when it is stored out of line. The backing chunk is what lets a value be replaced where it stands;
it belongs to the record it came with, so a detached copy has none, and it takes no part in
equality.

* `RecordOf.detached` — a copy that owns no chunk;
* `Value.same`, `RecordOf.same` — equality of contents;
* `Value.depth` — how deep records are nested, which bounds every walk over a value.
-/

namespace RecordLayout

/-- A record whose slots hold values of a type `α`. -/
structure RecordOf (α : Type) where
  schema : SchemaId
  slots : List α
  /-- The chunk behind each slot. -/
  chunks : List ChunkId
  deriving Repr, Inhabited

/-- A reference to a record of an unmanaged schema in a chunk of its own. -/
structure Handle where
  schema : SchemaId
  chunk : ChunkId
  deriving DecidableEq, Repr

/-- A value of a slot. -/
inductive Value where
  | null
  | scalar (value : Scalar)
  | width (value : Width)
  | text (value : String)
  | list (items : List Value)
  | record (value : RecordOf Value)
  /-- A value of a wrapper type, as a record of the wrapper's one-field schema. -/
  | wrapped (wrapper : WrapperId) (carrier : RecordOf Value)
  | handle (value : Handle)
  deriving Repr, Inhabited

/-- A record of values. -/
abbrev Record := RecordOf Value

/-- A value together with the chunk that backs it. -/
structure Slot where
  value : Value
  chunk : ChunkId
  deriving Repr, Inhabited

namespace Value

/-- A value of 64 unsigned bits. -/
def ofNat (n : Nat) : Value := .scalar (.u64 (UInt64.ofNat n))

/-- Whether a value is null. -/
def isNull : Value → Bool
  | .null => true
  | _ => false

/-- The content of a non-negative integer. -/
def toNat? : Value → Option Nat
  | .scalar s => s.toNat?
  | _ => none

/-- The text of a text value. -/
def text? : Value → Option String
  | .text s => some s
  | _ => none

/-- The items of a list. -/
def list? : Value → Option (List Value)
  | .list items => some items
  | _ => none

/-- The record of a record value. -/
def record? : Value → Option Record
  | .record r => some r
  | _ => none

/-- The handle of a handle value. -/
def handle? : Value → Option Handle
  | .handle h => some h
  | _ => none

/-- The value inside a wrapped value. -/
def unwrapped? : Value → Option Value
  | .wrapped _ carrier => carrier.slots.head?
  | _ => none

end Value

/-! ## Slots of a record -/

namespace RecordOf

/-- The value in a slot; null if there is no such slot. -/
def slot (r : Record) (i : Nat) : Value := r.slots.getD i .null

/-- The chunk behind a slot. -/
def chunk (r : Record) (i : Nat) : ChunkId := r.chunks.getD i .null

/-- Replaces the value in a slot and keeps the chunk behind it. -/
def setSlot (r : Record) (i : Nat) (value : Value) : Record :=
  { r with slots := r.slots.set i value }

/-- A slot with the chunk behind it. -/
def slotAt (r : Record) (i : Nat) : Slot := ⟨r.slot i, r.chunk i⟩

/-- Replaces a slot and the chunk behind it. -/
def setSlotAt (r : Record) (i : Nat) (slot : Slot) : Record :=
  { r with slots := r.slots.set i slot.value, chunks := r.chunks.set i slot.chunk }

/-- The same slots under another schema with the same fields. -/
def retarget (r : Record) (schema : SchemaId) : Record := { r with schema }

end RecordOf

/-! ## Walks over values -/

mutual

/-- A copy of a value that owns no chunk. -/
def Value.detached : Value → Value
  | .list items => .list (Value.detachedAll items)
  | .record r => .record (RecordOf.detached r)
  | .wrapped wrapper carrier => .wrapped wrapper (RecordOf.detached carrier)
  | other => other

/-- Copies of values that own no chunk. -/
def Value.detachedAll : List Value → List Value
  | [] => []
  | v :: vs => v.detached :: Value.detachedAll vs

/-- A copy of a record that owns no chunk. -/
def RecordOf.detached : RecordOf Value → RecordOf Value
  | ⟨schema, slots, chunks⟩ => ⟨schema, Value.detachedAll slots, chunks.map fun _ => .null⟩

end

mutual

/-- How deep records are nested in a value. -/
def Value.depth : Value → Nat
  | .list items => Value.depthAll items
  | .record r => RecordOf.depth r
  | .wrapped _ carrier => RecordOf.depth carrier
  | _ => 0

/-- How deep records are nested in the deepest of some values. -/
def Value.depthAll : List Value → Nat
  | [] => 0
  | v :: vs => max v.depth (Value.depthAll vs)

/-- How deep records are nested, this one included. -/
def RecordOf.depth : RecordOf Value → Nat
  | ⟨_, slots, _⟩ => Value.depthAll slots + 1

end

mutual

/-- Whether two values are equal in content. -/
def Value.same : Value → Value → Bool
  | .null, .null => true
  | .scalar a, .scalar b => a.same b
  | .width a, .width b => a == b
  | .text a, .text b => a == b
  | .list a, .list b => Value.sameAll a b
  | .record a, .record b => RecordOf.same a b
  | .wrapped v a, .wrapped w b => v == w && RecordOf.same a b
  | .handle a, .handle b => a == b
  | _, _ => false

/-- Whether two lists of values are equal in content. -/
def Value.sameAll : List Value → List Value → Bool
  | [], [] => true
  | a :: as, b :: bs => a.same b && Value.sameAll as bs
  | _, _ => false

/-- Whether two records of one schema are equal in content. -/
def RecordOf.same : RecordOf Value → RecordOf Value → Bool
  | ⟨s, a, _⟩, ⟨t, b, _⟩ => s == t && Value.sameAll a b

end

mutual

/-- The schemas that a value refers to, and the wrappers. -/
def Value.types : Value → List TypeKey
  | .list items => Value.typesAll items
  | .record r => RecordOf.types r
  | .wrapped wrapper carrier => .wrapper wrapper :: RecordOf.types carrier
  | .handle h => [.record h.schema]
  | _ => []

/-- The types that some values refer to. -/
def Value.typesAll : List Value → List TypeKey
  | [] => []
  | v :: vs => v.types ++ Value.typesAll vs

/-- The types that a record refers to. -/
def RecordOf.types : RecordOf Value → List TypeKey
  | ⟨schema, slots, _⟩ => .record schema :: Value.typesAll slots

end

end RecordLayout
