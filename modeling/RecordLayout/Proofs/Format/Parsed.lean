import Mathlib
import RecordLayout.Proofs.Format.Basic
import RecordLayout.Proofs.Stream.Consumed

/-!
# What bytes are read as

The stored format as its readers see it. `Parses` says which value bytes are read as, with the chunk
that is noted behind its slot; it is built like the walks over stored records, and all of them follow
it. Bytes that a writer has left are a special case: a reader also takes numbers in padded forms,
any bytes where an absent value leaves room, and chunks with more in them than is asked for.

Nothing is said here of values being well made, of their build checks, nor of chunks being distinct:
the bytes are the readers' input and may come from anywhere.

Main results:

* `Parses.fixed` — what is seen as a fixed size is the number of bytes.
-/

namespace RecordLayout

/-- A relation between placements, the values that are read there, the chunks that are noted behind
their slots, the bytes, and the chunks to which these lead, in the order of the references. -/
abbrev Parse := Placement → Value → Option ChunkId → Bytes → List ChunkId → Prop

/-! ## Plain values -/

/-- The bytes are the tag of a variant or the id of a type. -/
def SpellsTag (b : Bytes) (tag : Nat) : Prop :=
  ∃ v, Varint.Spells b v ∧ v.toNat = tag ∧ tag ≤ maxTag

/-- The bytes are the id of a chunk in fixed width. -/
def ChunkId.Spelled (chunk : ChunkId) (b : Bytes) : Prop :=
  b.length = fixedBytes ∧ leValue b = chunk.id

/-- The bytes are the chunk of a handle. -/
def SpellsHandle (fixed : Bool) (b : Bytes) (chunk : ChunkId) : Prop :=
  if fixed then chunk.Spelled b else ∃ v, Varint.Spells b v ∧ v.toNat = chunk.id

/-- The bytes are a tag of fixed width and the id of a chunk. -/
structure SpellsTagged (b : Bytes) (tag : Nat) (chunk : ChunkId) : Prop where
  length : b.length = Placement.taggedBytes
  tag_eq : leValue (b.take 4) = tag
  chunk_eq : chunk.Spelled (b.drop 4)

/-- The bytes are scalars of one kind in a row. -/
inductive SpellsScalars (kind : ScalarKind) : List Scalar → Bytes → Prop
  | nil : SpellsScalars kind [] []
  | cons {s : Scalar} {rest : List Scalar} {b c : Bytes} (hlen : b.length = kind.bytes)
    (hfirst : Scalar.decode kind b = .ok s) (hrest : SpellsScalars kind rest c) :
    SpellsScalars kind (s :: rest) (b ++ c)

/-! ## Slots -/

/-- What the bytes of a slot are read as. `slots` gives the slots that decide sizes. -/
inductive SlotParse (form : Parse) (w : Workspace) (slots : Nat → Value) :
    Encoding → Value → Option ChunkId → Bytes → List ChunkId → Prop
  | scalar {kind : ScalarKind} {s : Scalar} {b : Bytes} (hlen : b.length = kind.bytes)
    (hdecode : Scalar.decode kind b = .ok s) :
    SlotParse form w slots (.scalar kind) (.scalar s) none b []
  | ordinal {byte : UInt8} {width : Width} (h : Width.ofOrdinal byte.toNat = .ok width) :
    SlotParse form w slots .ordinal (.width width) none [byte] []
  | sized {g : Nat} {width : Width} {b : Bytes} (hwidth : slots g = .width width)
    (hlen : b.length = width.bytes) :
    SlotParse form w slots (.sized g) (.scalar (.u64 (UInt64.ofNat (leValue b)))) none b []
  | forced {width : Width} {b : Bytes} (hlen : b.length = width.bytes) :
    SlotParse form w slots (.forced width) (.scalar (.u64 (UInt64.ofNat (leValue b)))) none b []
  | varint {n : UInt64} {b : Bytes} (h : Varint.Spells b n) :
    SlotParse form w slots .varint (.scalar (.u64 n)) none b []
  | array {g : Nat} {kind : ScalarKind} {items : List Scalar} {b : Bytes}
    (hcount : (slots g).toNat? = some items.length) (hitems : SpellsScalars kind items b) :
    SlotParse form w slots (.array kind g) (.list (items.map .scalar)) none b []
  /-- What stands in the room of an absent value does not matter. -/
  | absent {p : Placement} {b : Bytes} (hset : w.compiler.Settles (p.asks w.catalog))
    (hlen : b.length = (p.sizeIn w.compiler).fixed?.getD 0) :
    SlotParse form w slots (.placed p true) .null (some .null) (0 :: b) []
  | present {p : Placement} {v : Value} {o : Option ChunkId} {b : Bytes} {F : List ChunkId}
    (hplaced : form p v o b F) : SlotParse form w slots (.placed p true) v o (1 :: b) F
  | plain {p : Placement} {v : Value} {o : Option ChunkId} {b : Bytes} {F : List ChunkId}
    (hplaced : form p v o b F) : SlotParse form w slots (.placed p false) v o b F

/-- What the bytes of fields in a row are read as in a new record. -/
inductive RowParse (form : Parse) (w : Workspace) (r : Record) :
    List BoundField → Bytes → List ChunkId → Prop
  | nil : RowParse form w r [] [] []
  | cons {f : BoundField} {fields : List BoundField} {o : Option ChunkId} {b c : Bytes}
    {F G : List ChunkId} (first : SlotParse form w r.slot f.encoding (r.slot f.slot) o b F)
    (behind : r.chunk f.slot = o.getD .null) (rest : RowParse form w r fields c G) :
    RowParse form w r (f :: fields) (b ++ c) (F ++ G)

/-- What the bytes of a record are read as in a layout. -/
structure RecordParse (form : Parse) (w : Workspace) (key : LayoutKey) (r : Record) (b : Bytes)
    (F : List ChunkId) : Prop where
  schema : r.schema = key.1
  slots : r.slots.length = (w.catalog.schema key.1).fields.length
  chunks : r.chunks.length = r.slots.length
  fields : ∃ l, w.compiler.answer key = some l ∧ RowParse form w r l.fields b F

/-! ## Values -/

/-- What bytes are read as in a placement, given what the values inside are read as. Variants whose
size is seen as fixed must take this size; padded tags do not. -/
inductive PlacedParse (form : Parse) (w : Workspace) :
    Placement → Value → Option ChunkId → Bytes → List ChunkId → Prop
  | scalar {kind : ScalarKind} {s : Scalar} {b : Bytes} (hlen : b.length = kind.bytes)
    (hdecode : Scalar.decode kind b = .ok s) :
    PlacedParse form w (.scalar kind) (.scalar s) none b []
  | noText {b : Bytes} (hlen : Varint.Spells b 0) : PlacedParse form w .inlineText .null none b []
  | text {n : UInt64} {b c : Bytes} {s : String} (hlen : Varint.Spells b n) (hne : n.toNat ≠ 0)
    (hc : c.length = n.toNat - 1) (hdecode : Utf8.decode c = .ok s) :
    PlacedParse form w .inlineText (.text s) none (b ++ c) []
  | inlineRecord {id : SchemaId} {r : Record} {b : Bytes} {F : List ChunkId}
    (hrecord : RecordParse form w (id, .standard) r b F) :
    PlacedParse form w (.inlineRecord id) (.record r) none b F
  | fixedRecord {id : SchemaId} {r : Record} {b : Bytes} {F : List ChunkId}
    (hrecord : RecordParse form w (id, .fixed) r b F) :
    PlacedParse form w (.fixedRecord id) (.record r) none b F
  | wrapped {wrapper : WrapperId} {carrier : SchemaId} {kind : LayoutKind} {r : Record} {b : Bytes}
    {F : List ChunkId} (hrecord : RecordParse form w (carrier, kind) r b F) :
    PlacedParse form w (.wrapped wrapper carrier kind) (.wrapped wrapper r) none b F
  | noHandle {id : SchemaId} {fixed : Bool} {b : Bytes} (hchunk : SpellsHandle fixed b .null) :
    PlacedParse form w (.handle id fixed) .null none b []
  | handle {id : SchemaId} {fixed : Bool} {chunk : ChunkId} {b : Bytes}
    (hchunk : SpellsHandle fixed b chunk) (hne : chunk ≠ .null) :
    PlacedParse form w (.handle id fixed) (.handle ⟨id, chunk⟩) none b []
  | noChoice {choice : ChoiceId} {b : Bytes} (htag : SpellsTag b 0)
    (hsize : ∀ n, (Placement.inlineChoice choice).sizeIn w.compiler = .fixed n → b.length = n) :
    PlacedParse form w (.inlineChoice choice) .null none b []
  | choice {choice : ChoiceId} {tag : Nat} {id : SchemaId} {r : Record} {b c : Bytes}
    {F : List ChunkId} (htag : SpellsTag b tag) (hne : tag ≠ 0)
    (hvariant : (w.catalog.choice choice).variant? tag = some id)
    (hrecord : RecordParse form w (id, .standard) r c F)
    (hsize : ∀ n, (Placement.inlineChoice choice).sizeIn w.compiler = .fixed n →
      (b ++ c).length = n) :
    PlacedParse form w (.inlineChoice choice) (.record r) none (b ++ c) F
  | noOpen {b : Bytes} (hid : SpellsTag b 0) : PlacedParse form w .inlineOpen .null none b []
  | typed {id : Nat} {type : ValueType} {p : Placement} {v : Value} {o : Option ChunkId}
    {b c : Bytes} {F : List ChunkId} (hid : SpellsTag b id) (hne : id ≠ 0)
    (htype : w.types.resolve id = .ok type)
    (hplace : w.compiler.placementAnswer (type.key, .flexible) = some p)
    (hplaced : form p v o c F) : PlacedParse form w .inlineOpen v none (b ++ c) F
  | noChunkText {b : Bytes} (hchunk : ChunkId.null.Spelled b) :
    PlacedParse form w .chunkText .null (some .null) b []
  | chunkText {chunk : ChunkId} {content b : Bytes} {s : String} (hchunk : chunk.Spelled b)
    (hne : chunk ≠ .null) (hcontent : w.store.content? chunk = some content)
    (hdecode : Utf8.decode content = .ok s) :
    PlacedParse form w .chunkText (.text s) (some chunk) b [chunk]
  | noChunkRecord {id : SchemaId} {b : Bytes} (hchunk : ChunkId.null.Spelled b) :
    PlacedParse form w (.chunkRecord id) .null (some .null) b []
  | chunkRecord {id : SchemaId} {r : Record} {chunk : ChunkId} {b c d : Bytes}
    {F : List ChunkId} (hchunk : chunk.Spelled b) (hne : chunk ≠ .null)
    (hcontent : w.store.content? chunk = some (c ++ d))
    (hrecord : RecordParse form w (id, .standard) r c F) :
    PlacedParse form w (.chunkRecord id) (.record r) (some chunk) b (chunk :: F)
  | noChunkChoice {choice : ChoiceId} {chunk : ChunkId} {b : Bytes}
    (htagged : SpellsTagged b 0 chunk) :
    PlacedParse form w (.chunkChoice choice) .null (some chunk) b []
  | chunkChoice {choice : ChoiceId} {tag : Nat} {id : SchemaId} {r : Record} {chunk : ChunkId}
    {b c d : Bytes} {F : List ChunkId} (htagged : SpellsTagged b tag chunk) (htag : tag ≠ 0)
    (hne : chunk ≠ .null) (hvariant : (w.catalog.choice choice).variant? tag = some id)
    (hcontent : w.store.content? chunk = some (c ++ d))
    (hrecord : RecordParse form w (id, .standard) r c F) :
    PlacedParse form w (.chunkChoice choice) (.record r) (some chunk) b (chunk :: F)
  | noChunkOpen {chunk : ChunkId} {b : Bytes} (htagged : SpellsTagged b 0 chunk) :
    PlacedParse form w .chunkOpen .null (some chunk) b []
  | chunkTyped {id : Nat} {type : ValueType} {p : Placement} {v : Value} {o : Option ChunkId}
    {chunk : ChunkId} {b c d : Bytes} {F : List ChunkId} (htagged : SpellsTagged b id chunk)
    (hid : id ≠ 0) (hne : chunk ≠ .null) (htype : w.types.resolve id = .ok type)
    (hplace : w.compiler.placementAnswer (type.key, .flexible) = some p)
    (hcontent : w.store.content? chunk = some (c ++ d)) (hplaced : form p v o c F) :
    PlacedParse form w .chunkOpen v (some chunk) b (chunk :: F)

/-- What bytes are read as in a placement; values may be nested `n` deep. -/
def Parses (w : Workspace) : Nat → Parse
  | 0 => fun _ _ _ _ _ => False
  | n + 1 => PlacedParse (Parses w n) w

/-! ## Fixed sizes -/

theorem SpellsScalars.length {kind : ScalarKind} {items : List Scalar} {b : Bytes}
    (h : SpellsScalars kind items b) : b.length = items.length * kind.bytes := by
  induction h with
  | nil => rw [List.length_nil, List.length_nil, Nat.zero_mul]
  | cons hlen _ _ ih => rw [List.length_append, List.length_cons, hlen, ih, Nat.succ_mul, Nat.add_comm]

theorem SizeRange.sum_fixed {ranges : List SizeRange} {n : Nat} (h : sum ranges = .fixed n) :
    ∃ sizes : List Nat, ranges = sizes.map .fixed ∧ sizes.sum = n := by
  -- the sum is folded from the left, so the lemma is stated for any start
  have hgen : ∀ (ranges : List SizeRange) (start n : Nat),
      ranges.foldl add (.fixed start) = .fixed n →
        ∃ sizes : List Nat, ranges = sizes.map .fixed ∧ start + sizes.sum = n := by
    intro ranges
    induction ranges with
    | nil =>
      intro start n h
      cases h
      exact ⟨[], rfl, rfl⟩
    | cons r rest ih =>
      intro start n h
      cases r with
      | fixed m =>
        obtain ⟨sizes, rfl, hsum⟩ := ih (start + m) n h
        exact ⟨m :: sizes, rfl, by rw [List.sum_cons]; omega⟩
      -- a range with room cannot be part of a fixed sum
      | between least most =>
        have hfixed : (rest.foldl add ((SizeRange.fixed start).add (.between least most))).isFixed =
            true := by
          rw [List.foldl_cons] at h
          rw [h]
          rfl
        cases (isFixed_foldl_add hfixed).1
  obtain ⟨sizes, hranges, hsum⟩ := hgen ranges 0 n h
  exact ⟨sizes, hranges, by omega⟩

section

variable {w : Workspace} {form : Parse}

/-- Values take what is seen as their fixed size. -/
def Parse.Fixed (form : Parse) (w : Workspace) : Prop :=
  ∀ p v o b F n, form p v o b F → p.sizeIn w.compiler = .fixed n → b.length = n

theorem SlotParse.fixed (hform : form.Fixed w) {slots : Nat → Value} {e : Encoding} {v : Value}
    {o : Option ChunkId} {b : Bytes} {F : List ChunkId} {n : Nat}
    (h : SlotParse form w slots e v o b F) (hsize : e.sizeIn w.compiler = .fixed n) :
    b.length = n := by
  -- the size of a value that may be absent is fixed if that of the value is
  have hmarked {p : Placement} (hp : (Encoding.placed p true).sizeIn w.compiler = .fixed n) :
      ∃ m, p.sizeIn w.compiler = .fixed m ∧ n = m + 1 := by
    rw [Encoding.sizeIn] at hp
    cases hinner : p.sizeIn w.compiler with
    | fixed m =>
      rw [hinner] at hp
      cases hp
      exact ⟨m, rfl, Nat.add_comm _ _⟩
    | between least most =>
      rw [hinner] at hp
      cases hp
  cases h with
  | scalar hlen _ =>
    cases hsize
    exact hlen
  | ordinal _ =>
    cases hsize
    rfl
  | sized _ _ => cases hsize
  | forced hlen =>
    cases hsize
    exact hlen
  | varint _ => cases hsize
  | array _ _ => cases hsize
  | absent _ hlen =>
    obtain ⟨m, hm, rfl⟩ := hmarked hsize
    rw [hm] at hlen
    rw [List.length_cons, hlen]
    rfl
  | present hplaced =>
    obtain ⟨m, hm, rfl⟩ := hmarked hsize
    rw [List.length_cons, hform _ _ _ _ _ _ hplaced hm]
  | plain hplaced => exact hform _ _ _ _ _ _ hplaced hsize

/-- Fields of a good layout take what was seen as their fixed size. -/
theorem RowParse.fixed (hform : form.Fixed w) {s : Schema} {kind : LayoutKind} {r : Record}
    {fields : List BoundField} {b : Bytes} {F : List ChunkId} (h : RowParse form w r fields b F)
    (hgood : ∀ f ∈ fields, ∃ decl, FieldGood w.compiler s kind decl f) {sizes : List Nat}
    (hsizes : fields.map (·.size) = sizes.map .fixed) : b.length = sizes.sum := by
  induction h generalizing sizes with
  | nil =>
    cases sizes with
    | nil => rfl
    | cons n rest => cases hsizes
  | @cons f fields o b c F G first _ _ ih =>
    cases sizes with
    | nil => cases hsizes
    | cons n rest =>
      rw [List.map_cons, List.map_cons, List.cons.injEq] at hsizes
      obtain ⟨decl, hfield⟩ := hgood f List.mem_cons_self
      -- the field was given a fixed size, so the range of its encoding is that size
      have hsize : f.encoding.sizeIn w.compiler = .fixed n := by
        rw [hfield.sized.eq_sizeIn (by rw [hsizes.1]; rfl), hsizes.1]
      rw [List.length_append, List.sum_cons, first.fixed hform hsize,
        ih (fun g hg => hgood g (List.mem_cons_of_mem _ hg)) hsizes.2]

theorem RecordParse.fixed (hs : w.Sound) (hform : form.Fixed w) {key : LayoutKey} {r : Record}
    {b : Bytes} {F : List ChunkId} {n : Nat} (h : RecordParse form w key r b F)
    (hsize : (w.compiler.answer key).elim (SizeRange.atLeast 0) (·.size) = .fixed n) :
    b.length = n := by
  obtain ⟨l, hl, hrow⟩ := h.fields
  obtain ⟨id, kind⟩ := key
  have hgood := hs.compiler.good.layouts id kind l hl
  rw [hl, Option.elim_some, hgood.size] at hsize
  obtain ⟨sizes, hsizes, rfl⟩ := SizeRange.sum_fixed hsize
  exact hrow.fixed hform (fun f hf => hgood.fields.declared hf) hsizes

/-- What is seen as a fixed size is the number of bytes. -/
theorem Parses.fixed (hs : w.Sound) (n : Nat) : Parse.Fixed (Parses w n) w := by
  induction n with
  | zero => exact fun _ _ _ _ _ _ h => h.elim
  | succ n ih =>
    intro p v o b F m h hsize
    cases h with
    | scalar hlen _ =>
      cases hsize
      exact hlen
    | noText _ => cases hsize
    | text _ _ _ _ => cases hsize
    | inlineRecord hrecord => exact hrecord.fixed hs ih hsize
    | fixedRecord hrecord => exact hrecord.fixed hs ih hsize
    | wrapped hrecord => exact hrecord.fixed hs ih hsize
    | @noHandle id fixed _ hchunk =>
      -- only handles that are written as fixed ones are of a fixed size
      cases fixed with
      | true =>
        cases hsize
        exact hchunk.1
      | false => cases hsize
    | @handle id fixed _ _ hchunk _ =>
      cases fixed with
      | true =>
        cases hsize
        exact hchunk.1
      | false => cases hsize
    | noChoice _ hown => exact hown m hsize
    | choice _ _ _ _ hown => exact hown m hsize
    | noOpen _ => cases hsize
    | typed _ _ _ _ _ => cases hsize
    | noChunkText hchunk =>
      cases hsize
      exact hchunk.1
    | chunkText hchunk _ _ _ =>
      cases hsize
      exact hchunk.1
    | noChunkRecord hchunk =>
      cases hsize
      exact hchunk.1
    | chunkRecord hchunk _ _ _ =>
      cases hsize
      exact hchunk.1
    | noChunkChoice htagged =>
      cases hsize
      exact htagged.length
    | chunkChoice htagged _ _ _ _ _ =>
      cases hsize
      exact htagged.length
    | noChunkOpen htagged =>
      cases hsize
      exact htagged.length
    | chunkTyped htagged _ _ _ _ _ _ =>
      cases hsize
      exact htagged.length

end

end RecordLayout
