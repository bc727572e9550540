import RecordLayout.Codec.Write

/-!
# Reading records

A record is read field by field in canonical order into a new record, or into one that is there.
The chunk from which a value is read becomes the chunk behind its slot. Records of an immutable
schema are read as drafts, which the build check of the schema must accept.

Reading goes as deep as the bytes say. Every record that can be nested without bound has a byte of
its own, a marker, a tag or a reference, so the bytes of the stream and of all chunks bound the
depth: `readDepth`.

* `readNew`, `readInto` — one record;
* `readField` — one field of a record;
* `readPlaced` — one value in its placement.
-/

namespace RecordLayout

-- powers are those of numbers themselves, also where an algebra library is loaded
attribute [local instance (high)] instPowNat

/-- A way to read a value in its placement; the subject is the chunk behind the slot. -/
abbrev ReadIn := Placement → Op ChunkId Value

section

variable {τ : Type}

/-! ## Plain values -/

/-- Reads a variable-length number. -/
def readVarint : Op τ Nat := do
  let n ← Op.stream ByteSource.readVarint
  pure n.toNat

/-- Reads the id of a chunk in fixed width. -/
def readChunkId : Op τ ChunkId := do
  let n ← Op.stream ByteSource.readU64
  pure ⟨n.toNat⟩

/-- Reads a word of a width. -/
def readNumber (width : Width) : Op τ Value := do
  let n ← Op.stream (ByteSource.readWord width.bytes)
  pure (.scalar (.u64 n))

/-- Moves past `n` bytes. -/
def passBytes (n : Nat) : Op τ Unit := Op.stream (ByteSource.skip n)

/-- Reads the ordinal of a width. -/
def readWidth : Op τ Value := do
  let byte ← Op.stream ByteSource.readByte
  match Width.ofOrdinal byte.toNat with
  | .ok width => pure (.width width)
  | .error e => throw (.stream (.number e))

/-- Reads a scalar of a kind. -/
def readScalar (kind : ScalarKind) : Op τ Value := do
  let bytes ← Op.stream (ByteSource.read kind.bytes)
  match Scalar.decode kind bytes with
  | .ok s => pure (.scalar s)
  | .error e => throw (.stream e)

/-- Reads `n` scalars of a kind. -/
def readScalars (kind : ScalarKind) : Nat → Op τ (List Value)
  | 0 => pure []
  | n + 1 => do
    let first ← readScalar kind
    let rest ← readScalars kind n
    pure (first :: rest)

/-- The text that bytes spell. -/
def decodeText (bytes : Bytes) : Op τ Value :=
  match Utf8.decode bytes with
  | .ok s => pure (.text s)
  | .error e => throw (.stream (.corrupt (.text e)))

/-- Reads an inline text. -/
def readText : Op τ Value := do
  let n ← readVarint
  if n = 0 then pure .null
  else do
    let bytes ← Op.stream (ByteSource.readBytes (n - 1))
    decodeText bytes

/-- Reads the marker before a value that may be absent. -/
def readMarker : Op τ Bool := do
  let byte ← Op.stream ByteSource.readByte
  if byte = 0 then pure false
  else if byte = 1 then pure true
  else throw (.stream (.corrupt (.presenceMarker byte.toNat)))

/-- The largest tag or type id. -/
def maxTag : Nat := 2 ^ (32 : Nat) - 1

/-- Reads the tag of a variant or the id of a type, of variable length. -/
def readTag : Op τ Nat := do
  let n ← readVarint
  if n ≤ maxTag then pure n else throw (.unknownTypeId maxTag)

/-- Reads the chunk of a handle. -/
def readHandleChunk (fixed : Bool) : Op τ ChunkId :=
  if fixed then readChunkId
  else do
    let n ← readVarint
    pure ⟨n⟩

/-- Reads a handle to a record of a schema. -/
def readHandle (schema : SchemaId) (fixed : Bool) : Op τ Value := do
  let chunk ← readHandleChunk fixed
  pure (if chunk.isNull then .null else .handle ⟨schema, chunk⟩)

end

/-! ## Fields and records -/

/-- Sets the value of a slot and keeps the chunk behind it. -/
def fillSlot (slot : Nat) (read : Op Record Value) : Op Record Unit := do
  let value ← read
  Op.modifySubject fun r => r.setSlot slot value

/-- Reads one field into a record, given how to read values. -/
def readFieldWith (readIn : ReadIn) (f : BoundField) : Op Record Unit := Op.inField f do
  let r ← Op.subject
  match f.encoding with
  | .scalar kind => fillSlot f.slot (readScalar kind)
  | .ordinal => fillSlot f.slot readWidth
  | .sized governor => do
    let width ← Op.space (widthIn r governor)
    fillSlot f.slot (readNumber width)
  | .forced width => fillSlot f.slot (readNumber width)
  | .varint => fillSlot f.slot do
      let n ← readVarint
      pure (Value.ofNat n)
  | .array element governor => do
    let count ← Op.space (countOf (r.slot governor))
    fillSlot f.slot do
      let items ← readScalars element count
      pure (.list items)
  | .placed placement marker => do
    let present ← if marker then readMarker else pure true
    if present then fillSlot f.slot (Op.on (RecordOf.chunkPart f.slot) (readIn placement))
    else do
      let inline ← Op.compile (placement.inlineSize Compiler.layout)
      passBytes (inline.getD 0)
      Op.modifySubject fun r => r.setSlotAt f.slot ⟨.null, .null⟩

/-- Reads into a record of the schema of the layout, given how to read values. -/
def readIntoWith (readIn : ReadIn) (l : Layout) : Op Record Unit := do
  let r ← Op.subject
  Op.space (requireSchema l r)
  l.fields.forM (readFieldWith readIn)
  let r ← Op.subject
  let c ← Op.catalog
  ofExcept ((c.schema l.schema).checkBuild (c.schema r.schema) r.slots)

/-- Reads a new record of the schema of the layout itself, given how to read values. -/
def readFreshWith {τ : Type} (readIn : ReadIn) (l : Layout) : Op τ Record := do
  let c ← Op.catalog
  let (_, r) ← Op.withSubject (c.newRecord l.schema) (readIntoWith readIn l)
  pure r

/-- Reads a new record, given how to read values. -/
def readNewWith {τ : Type} (readIn : ReadIn) (l : Layout) : Op τ Record :=
  match l.draft with
  | none => readFreshWith readIn l
  | some id => do
    let draft ← Op.space (SpaceM.layout id l.kind)
    let r ← readFreshWith readIn draft
    let c ← Op.catalog
    ofExcept ((c.schema l.schema).checkBuild (c.schema r.schema) r.slots)
    pure (r.retarget l.schema)

/-! ## Values -/

/-- Notes the chunk behind a slot. -/
def noteChunk (chunk : ChunkId) : Op ChunkId Unit := Op.setSubject chunk

/-- Reads the text that a reference leads to. -/
def readTextBehind : Op ChunkId Value := do
  let chunk ← readChunkId
  noteChunk chunk
  if chunk.isNull then pure .null
  else withChunk chunk do
    let bytes ← Op.stream fun s => ByteSource.readBytes s.remaining s
    decodeText bytes

/-- Reads a new record as a value, given how to read values. -/
def readRecordValue (readIn : ReadIn) (layout : SpaceM Layout) : Op ChunkId Value := do
  let l ← Op.space layout
  let r ← readNewWith readIn l
  pure (.record r)

/-- Reads the record that a reference leads to. -/
def readRecordBehind (readIn : ReadIn) (schema : SchemaId) : Op ChunkId Value := do
  let chunk ← readChunkId
  noteChunk chunk
  if chunk.isNull then pure .null
  else do
    let l ← Op.space (SpaceM.layout schema .standard)
    withChunk chunk (readRecordValue readIn (pure l))

/-- Reads a tag of fixed width and the reference after it, which must lead somewhere unless the tag
is zero. `what` names it in a failure. -/
def readTagged (what : String) : Op ChunkId (Nat × ChunkId) := do
  let tag ← Op.stream ByteSource.readU32
  let chunk ← readChunkId
  noteChunk chunk
  if tag ≠ 0 && chunk.isNull then throw (.stream (.corrupt (.nullReference what)))
  else pure (tag, chunk)

/-- Reads the variant that a tagged reference leads to. -/
def readChoiceBehind (readIn : ReadIn) (choice : ChoiceId) : Op ChunkId Value := do
  let c ← Op.catalog
  let (tag, chunk) ← readTagged (c.choice choice).name
  if tag = 0 then pure .null
  else do
    let l ← Op.space (SpaceM.variantLayout choice tag)
    withChunk chunk (readRecordValue readIn (pure l))

/-- Reads the value of open type that a tagged reference leads to. -/
def readOpenBehind (readIn : ReadIn) : Op ChunkId Value := do
  let (id, chunk) ← readTagged "typed reference"
  if id = 0 then pure .null
  else do
    let placement ← Op.space (SpaceM.openPlacement id)
    let (value, _) ← withChunk chunk (Op.withSubject .null (readIn placement))
    pure value

/-- Reads an inline variant. -/
def readChoice (readIn : ReadIn) (choice : ChoiceId) : Op ChunkId Value := do
  let tag ← readTag
  if tag = 0 then pure .null else readRecordValue readIn (SpaceM.variantLayout choice tag)

/-- Reads an inline value of open type. -/
def readOpen (readIn : ReadIn) : Op ChunkId Value := do
  let id ← readTag
  if id = 0 then pure .null
  else do
    let placement ← Op.space (SpaceM.openPlacement id)
    let (value, _) ← Op.withSubject .null (readIn placement)
    pure value

/-- Reads an inline value of a wrapper. -/
def readWrapped (readIn : ReadIn) (wrapper : WrapperId) (carrier : SchemaId) (kind : LayoutKind) :
    Op ChunkId Value := do
  let l ← Op.space (SpaceM.layout carrier kind)
  let r ← readNewWith readIn l
  pure (.wrapped wrapper r)

/-- Reads a value in its placement; values may be nested `depth` deep. -/
def readWithin : Nat → ReadIn
  | 0, _ => throw .exhausted
  | depth + 1, p =>
    let inside := readWithin depth
    match p with
    | .scalar kind => readScalar kind
    | .inlineText => readText
    | .chunkText => readTextBehind
    | .inlineRecord schema => readRecordValue inside (SpaceM.layout schema .standard)
    | .fixedRecord schema => readRecordValue inside (SpaceM.layout schema .fixed)
    | .chunkRecord schema => readRecordBehind inside schema
    | .handle schema fixed => readHandle schema fixed
    | .inlineChoice choice => readChoice inside choice
    | .chunkChoice choice => readChoiceBehind inside choice
    | .inlineOpen => readOpen inside
    | .chunkOpen => readOpenBehind inside
    | .wrapped wrapper carrier kind => readWrapped inside wrapper carrier kind

/-! ## Whole values -/

/-- How deep the walks over stored bytes can go. A walk passes each declared type at most once
without a byte of its own, in at most two steps. -/
def readDepth {τ : Type} : Op τ Nat := fun s =>
  let bytes := s.stream.remaining + s.space.store.totalBytes
  .ok ((bytes + 1) * (8 * (s.space.catalog.size + 2))) s

/-- Reads a value in its placement. -/
def readPlaced (p : Placement) : Op ChunkId Value := do
  let depth ← readDepth
  readWithin depth p

/-- Reads one field into a record. -/
def readField (f : BoundField) : Op Record Unit := do
  let depth ← readDepth
  readFieldWith (readWithin depth) f

/-- Reads into a record of the schema of the layout. -/
def readInto (l : Layout) : Op Record Unit := do
  let depth ← readDepth
  readIntoWith (readWithin depth) l

/-- Reads a new record. -/
def readNew {τ : Type} (l : Layout) : Op τ Record := do
  let depth ← readDepth
  readNewWith (readWithin depth) l

end RecordLayout
