import Mathlib
import RecordLayout.Codec.Derive
import RecordLayout.Proofs.Outcome

/-!
# What values own and mean

A value owns the chunks behind its slots, at all depths: `Value.companions`. Its content is what is
left without them: two values have the same content if their detached copies are equal. `Ready` says
that a value is made as records of the catalog are made; `Accepted` that the build checks accept its
content at every depth.

Main results:

* `RecordOf.companions_eq_flatMap` — the chunks of a record, slot by slot;
* `RecordOf.detached_eq_iff` — records have the same content if their slots do.
-/

namespace RecordLayout

/-! ## Chunks behind slots -/

/-- A chunk that is there. -/
def ownChunk (chunk : ChunkId) : List ChunkId := if chunk.isNull then [] else [chunk]

mutual

/-- The chunks behind the slots of a value, at all depths. -/
def Value.companions : Value → List ChunkId
  | .list items => Value.companionsAll items []
  | .record r => RecordOf.companions r
  | .wrapped _ carrier => RecordOf.companions carrier
  | _ => []

/-- The chunks behind values in a row and inside them. -/
def Value.companionsAll : List Value → List ChunkId → List ChunkId
  | [], chunks => chunks.flatMap ownChunk
  | v :: vs, chunks => ownChunk (chunks.headD .null) ++ v.companions ++
      Value.companionsAll vs chunks.tail

/-- The chunks behind the slots of a record, at all depths. -/
def RecordOf.companions : RecordOf Value → List ChunkId
  | ⟨_, slots, chunks⟩ => Value.companionsAll slots chunks

end

/-- The chunk behind a slot and those inside its value. -/
def Slot.companions (slot : Slot) : List ChunkId := ownChunk slot.chunk ++ slot.value.companions

@[simp] theorem ownChunk_null : ownChunk .null = [] := rfl

/-- A slot's own chunk is the one it names, unless that is null. -/
theorem mem_ownChunk {c chunk : ChunkId} : c ∈ ownChunk chunk ↔ c = chunk ∧ c ≠ .null := by
  rw [ownChunk]
  split
  · rename_i h
    rw [ChunkId.isNull_iff] at h
    simp only [List.not_mem_nil, false_iff, not_and, not_not]
    exact fun heq => heq.trans h
  · rename_i h
    rw [List.mem_singleton]
    constructor
    · rintro rfl
      exact ⟨rfl, fun hnull => h (ChunkId.isNull_iff.mpr hnull)⟩
    · exact And.left

namespace RecordOf

/-- The chunks named by a record are those of its slots, in their order. -/
theorem companionsAll_eq_flatMap (slots : List Value) (chunks : List ChunkId)
    (h : chunks.length = slots.length) :
    Value.companionsAll slots chunks = (List.range slots.length).flatMap fun i =>
      Slot.companions ⟨slots.getD i .null, chunks.getD i .null⟩ := by
  induction slots generalizing chunks with
  | nil =>
    obtain rfl := List.eq_nil_of_length_eq_zero h
    simp [Value.companionsAll]
  | cons v vs ih =>
    cases chunks with
    | nil => cases h
    | cons c cs =>
      rw [Value.companionsAll, List.headD_cons, List.tail_cons, ih cs (Nat.succ.inj h),
        List.length_cons, List.range_succ_eq_map, List.flatMap_cons, List.flatMap_map]
      rfl

/-- The chunks of a record, slot by slot. -/
theorem companions_eq_flatMap {r : Record} (h : r.chunks.length = r.slots.length) :
    r.companions = (List.range r.slots.length).flatMap fun i => (r.slotAt i).companions := by
  obtain ⟨schema, slots, chunks⟩ := r
  exact companionsAll_eq_flatMap slots chunks h

/-! ## One slot of a record -/

/-- Setting a slot keeps the number of slots. -/
@[simp] theorem slots_length_setSlotAt (r : Record) (i : Nat) (slot : Slot) :
    (r.setSlotAt i slot).slots.length = r.slots.length := List.length_set

/-- Setting a slot keeps the number of chunks. -/
@[simp] theorem chunks_length_setSlotAt (r : Record) (i : Nat) (slot : Slot) :
    (r.setSlotAt i slot).chunks.length = r.chunks.length := List.length_set

@[simp] theorem schema_setSlotAt (r : Record) (i : Nat) (slot : Slot) :
    (r.setSlotAt i slot).schema = r.schema := rfl

/-- Setting a value keeps the number of slots. -/
@[simp] theorem slots_length_setSlot (r : Record) (i : Nat) (v : Value) :
    (r.setSlot i v).slots.length = r.slots.length := List.length_set

/-- A value that is set is found, within the record. -/
theorem slot_setSlot_self {r : Record} {i : Nat} (h : i < r.slots.length) (v : Value) :
    (r.setSlot i v).slot i = v := by
  simp [slot, setSlot, h]

/-- Setting a value leaves the others. -/
theorem slot_setSlot_of_ne {r : Record} {i j : Nat} (h : j ≠ i) (v : Value) :
    (r.setSlot i v).slot j = r.slot j := by
  simp [slot, setSlot, List.getElem?_set_ne h.symm]

/-- A slot that is set is found, within the record. -/
theorem slotAt_setSlotAt_self {r : Record} {i : Nat} (h : i < r.slots.length)
    (hc : r.chunks.length = r.slots.length) (slot : Slot) : (r.setSlotAt i slot).slotAt i = slot := by
  have hc' : i < r.chunks.length := by omega
  simp [slotAt, RecordOf.slot, chunk, setSlotAt, h, hc']

/-- Setting a slot leaves the others. -/
theorem slotAt_setSlotAt_of_ne {r : Record} {i j : Nat} (h : j ≠ i) (slot : Slot) :
    (r.setSlotAt i slot).slotAt j = r.slotAt j := by
  simp [slotAt, RecordOf.slot, chunk, setSlotAt, List.getElem?_set_ne h.symm]

theorem slot_eq_slotAt (r : Record) (i : Nat) : r.slot i = (r.slotAt i).value := rfl

/-- Past the record's end every slot is null. -/
theorem slot_of_length_le {r : Record} {i : Nat} (h : r.slots.length ≤ i) : r.slot i = .null := by
  rw [slot, List.getD_eq_default _ _ h]

end RecordOf

/-! ## Contents -/

namespace Value

theorem isNull_iff {v : Value} : v.isNull = true ↔ v = .null := by
  cases v <;> simp [isNull]

/-- Values are detached one by one. -/
theorem detachedAll_eq_map (values : List Value) : detachedAll values = values.map detached := by
  induction values with
  | nil => rfl
  | cons v vs ih => rw [detachedAll, ih, List.map_cons]

end Value

namespace RecordOf

/-- Records have the same content if they are of one schema and their slots have. -/
theorem detached_eq_iff {r r' : Record} : r.detached = r'.detached ↔
    r.schema = r'.schema ∧ r.slots.map Value.detached = r'.slots.map Value.detached ∧
      r.chunks.length = r'.chunks.length := by
  obtain ⟨schema, slots, chunks⟩ := r
  obtain ⟨schema', slots', chunks'⟩ := r'
  simp only [detached, RecordOf.mk.injEq, Value.detachedAll_eq_map, List.map_const', and_congr_right_iff]
  intro _ _
  constructor
  · intro h
    simpa using congrArg List.length h
  · intro h
    rw [h]

/-- Slots have the same content if each one has. -/
theorem map_detached_eq {r r' : Record} (hlen : r.slots.length = r'.slots.length)
    (h : ∀ i < r.slots.length, (r.slot i).detached = (r'.slot i).detached) :
    r.slots.map Value.detached = r'.slots.map Value.detached := by
  apply List.ext_getElem (by simp [hlen])
  intro i h1 h2
  have hi : i < r.slots.length := by simpa using h1
  have hi' : i < r'.slots.length := by omega
  have hboth := h i hi
  rw [slot, slot, List.getD_eq_getElem _ _ hi, List.getD_eq_getElem _ _ hi'] at hboth
  simpa using hboth

end RecordOf

/-! ## Well-made values -/

/-- The slot holds a number of 64 unsigned bits. -/
def FieldShape.isNumber : FieldShape → Bool
  | .varint | .sized _ => true
  | _ => false

mutual

/-- A value is made as values of the catalog are: records have all their slots, numbers are
unsigned words, handles lead somewhere, and lengths and ids fit into words. -/
def Value.Ready (cat : Catalog) : Value → Prop
  | .record r => RecordOf.Ready cat r
  | .wrapped _ carrier => RecordOf.Ready cat carrier
  | .handle h => h.chunk ≠ .null ∧ h.chunk.id < 2 ^ 64
  | .text s => (Utf8.encode s).length + 1 < 2 ^ 64
  | _ => True

/-- Values in a row that are well made. -/
def Value.ReadyAll (cat : Catalog) : List Value → Prop
  | [] => True
  | v :: vs => v.Ready cat ∧ Value.ReadyAll cat vs

/-- A record is made as records of its schema are. -/
def RecordOf.Ready (cat : Catalog) : RecordOf Value → Prop
  | ⟨schema, slots, chunks⟩ => slots.length = (cat.schema schema).fields.length ∧
      chunks.length = slots.length ∧
      (∀ (i : Nat) (f : FieldDecl), (cat.schema schema).fields[i]? = some f →
        f.shape.isNumber = true → ∀ s, slots[i]? = some (.scalar s) → ∃ n, s = .u64 n) ∧
      Value.ReadyAll cat slots

end

mutual

/-- The build checks accept the content of every record in a value. -/
def Value.Accepted (cat : Catalog) : Value → Prop
  | .record r => RecordOf.Accepted cat r
  | .wrapped _ carrier => RecordOf.Accepted cat carrier
  | _ => True

/-- The build checks accept every one of some values. -/
def Value.AcceptedAll (cat : Catalog) : List Value → Prop
  | [] => True
  | v :: vs => v.Accepted cat ∧ Value.AcceptedAll cat vs

/-- The build checks accept a record, as a draft with the same content, and the records inside. -/
def RecordOf.Accepted (cat : Catalog) : RecordOf Value → Prop
  | ⟨schema, slots, _⟩ => (∀ slots' : List Value,
        slots'.map Value.detached = slots.map Value.detached →
          (cat.schema schema).checkBuild (cat.schema schema.toDraft) slots' = .ok ()) ∧
      Value.AcceptedAll cat slots

end

namespace Value

/-- Values are ready when each is. -/
theorem readyAll_iff {cat : Catalog} {values : List Value} :
    ReadyAll cat values ↔ ∀ v ∈ values, v.Ready cat := by
  induction values with
  | nil => simp [ReadyAll]
  | cons v vs ih => simp [ReadyAll, ih]

/-- Values are accepted when each is. -/
theorem acceptedAll_iff {cat : Catalog} {values : List Value} :
    AcceptedAll cat values ↔ ∀ v ∈ values, v.Accepted cat := by
  induction values with
  | nil => simp [AcceptedAll]
  | cons v vs ih => simp [AcceptedAll, ih]

end Value

namespace RecordOf

variable {cat : Catalog} {r : Record}

/-- A well-made record, in terms of its parts. -/
theorem ready_iff : r.Ready cat ↔ r.slots.length = (cat.schema r.schema).fields.length ∧
    r.chunks.length = r.slots.length ∧
    (∀ (i : Nat) (f : FieldDecl), (cat.schema r.schema).fields[i]? = some f →
      f.shape.isNumber = true → ∀ s, r.slots[i]? = some (.scalar s) → ∃ n, s = .u64 n) ∧
    ∀ v ∈ r.slots, v.Ready cat := by
  obtain ⟨schema, slots, chunks⟩ := r
  rw [Ready, Value.readyAll_iff]

/-- A ready record has a slot for every field of its schema. -/
theorem Ready.slots_length (h : r.Ready cat) :
    r.slots.length = (cat.schema r.schema).fields.length := (ready_iff.mp h).1

/-- A ready record has a chunk for every slot. -/
theorem Ready.chunks_length (h : r.Ready cat) : r.chunks.length = r.slots.length :=
  (ready_iff.mp h).2.1

/-- Every slot of a ready record is ready, those past its end included. -/
theorem Ready.slot (h : r.Ready cat) (i : Nat) : (r.slot i).Ready cat := by
  rw [RecordOf.slot, List.getD_eq_getElem?_getD]
  cases hi : r.slots[i]? with
  | none => trivial
  | some v => exact (ready_iff.mp h).2.2.2 v (List.mem_of_getElem? hi)

/-- A number of a ready record is held in the widest kind. -/
theorem Ready.number (h : r.Ready cat) {i : Nat} {f : FieldDecl}
    (hf : (cat.schema r.schema).fields[i]? = some f) (hnum : f.shape.isNumber = true) {s : Scalar}
    (hs : r.slot i = .scalar s) : ∃ n, s = .u64 n := by
  refine (ready_iff.mp h).2.2.1 i f hf hnum s ?_
  rw [RecordOf.slot, List.getD_eq_getElem?_getD] at hs
  cases hi : r.slots[i]? with
  | none => simp [hi] at hs
  | some v => simpa [hi] using hs

/-- Replacing slots by well-made values keeps a record well made. -/
theorem Ready.setSlotAt (h : r.Ready cat) {i : Nat} {slot : Slot} (hslot : slot.value.Ready cat)
    (hnum : ∀ f, (cat.schema r.schema).fields[i]? = some f → f.shape.isNumber = true →
      ∀ s, slot.value = .scalar s → ∃ n, s = .u64 n) : (r.setSlotAt i slot).Ready cat := by
  obtain ⟨hlen, hchunks, hnums, hall⟩ := ready_iff.mp h
  refine ready_iff.mpr ⟨by rw [slots_length_setSlotAt, hlen, schema_setSlotAt],
    by rw [chunks_length_setSlotAt, slots_length_setSlotAt, hchunks], ?_, ?_⟩
  · intro j f hf hnumber s hs
    by_cases hij : i = j
    · subst hij
      refine hnum f hf hnumber s ?_
      have hi : i < r.slots.length := by
        rw [hlen]
        exact (List.getElem?_eq_some_iff.mp hf).1
      simpa [RecordOf.setSlotAt, List.getElem?_set, hi] using hs
    · refine hnums j f hf hnumber s ?_
      rwa [RecordOf.setSlotAt, List.getElem?_set_ne hij] at hs
  · intro v hv
    rcases List.mem_or_eq_of_mem_set hv with hold | rfl
    · exact hall v hold
    · exact hslot

/-- Setting a value is setting the slot with the chunk it has. -/
theorem setSlot_eq_setSlotAt (r : Record) (i : Nat) (v : Value) :
    r.setSlot i v = r.setSlotAt i ⟨v, r.chunk i⟩ := by
  obtain ⟨schema, slots, chunks⟩ := r
  simp only [RecordOf.setSlot, RecordOf.setSlotAt, chunk, RecordOf.mk.injEq, true_and]
  by_cases hi : i < chunks.length
  · rw [List.getD_eq_getElem _ _ hi, List.set_getElem_self]
  · rw [List.set_eq_of_length_le (by omega)]

/-- A record is accepted when its check passes, whatever the chunks, and every value is accepted. -/
theorem accepted_iff : r.Accepted cat ↔ (∀ slots' : List Value,
      slots'.map Value.detached = r.slots.map Value.detached →
        (cat.schema r.schema).checkBuild (cat.schema r.schema.toDraft) slots' = .ok ()) ∧
    ∀ v ∈ r.slots, v.Accepted cat := by
  obtain ⟨schema, slots, chunks⟩ := r
  rw [Accepted, Value.acceptedAll_iff]

end RecordOf

end RecordLayout
