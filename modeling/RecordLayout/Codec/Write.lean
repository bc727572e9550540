import RecordLayout.Codec.Derive

/-!
# Writing records

A record is written field by field in canonical order, after its derived fields have been worked
out. A value behind a reference is replaced in its chunk if it has one, inside a transaction, and
gets a new chunk otherwise. A failed write frees the chunks that it allocated and leaves the record
with the references it had; what was written to the stream stays there.

* `writeRecord` — one record;
* `writeField` — one field of a record;
* `writePlaced` — one value in its placement.
-/

namespace RecordLayout

/-- A way to write a value in its placement, with the chunk that backs it. -/
abbrev WriteIn := Placement → Op Slot Unit

section

variable {τ : Type}

/-! ## Plain values -/

/-- Writes `n` zeros, at most 64 at a time. -/
def writeZeros (n : Nat) : Op τ Unit :=
  if _h : n = 0 then pure ()
  else do
    Op.write (List.replicate (min n 64) 0)
    writeZeros (n - min n 64)
termination_by n
decreasing_by omega

/-- Writes a variable-length number. -/
def writeVarint (n : Nat) : Op τ Unit := Op.stream (ByteSink.writeVarint (UInt64.ofNat n))

/-- Writes a word of a width. -/
def writeNumber (width : Width) (n : Nat) : Op τ Unit :=
  Op.stream (ByteSink.writeWord width.bytes (UInt64.ofNat n))

/-- Writes the id of a chunk in fixed width. -/
def writeChunkId (chunk : ChunkId) : Op τ Unit := Op.write chunk.encode

/-- Writes a scalar of a kind. -/
def writeScalar (kind : ScalarKind) (value : Value) : Op τ Unit :=
  match value with
  | .scalar s =>
    if s.kind = kind then Op.write s.encode else Op.space (SpaceM.mismatch kind.name value)
  | _ => Op.space (SpaceM.mismatch kind.name value)

/-- Writes scalars of one kind in a row. -/
def writeScalars (kind : ScalarKind) (items : List Value) : Op τ Unit :=
  items.forM (writeScalar kind)

/-- Writes an inline text. -/
def writeText (value : Value) : Op τ Unit :=
  match value with
  | .null => writeVarint 0
  | .text s => do
    let bytes := Utf8.encode s
    writeVarint (bytes.length + 1)
    Op.write bytes
  | _ => Op.space (SpaceM.mismatch "string" value)

/-- Writes the chunk of a handle to a record of a schema. -/
def writeHandle (schema : SchemaId) (fixed : Bool) (value : Value) : Op τ Unit := do
  let c ← Op.catalog
  let expected := "handle<" ++ c.schemaName schema ++ ">"
  let chunk ← match value with
    | .null => pure ChunkId.null
    | .handle h =>
      if h.schema = schema then pure h.chunk else Op.space (SpaceM.mismatch expected value)
    | _ => Op.space (SpaceM.mismatch expected value)
  if fixed then writeChunkId chunk else writeVarint chunk.id

end

/-! ## Fields and records -/

/-- Writes one field, given how to write values. -/
def writeFieldWith (writeIn : WriteIn) (f : BoundField) : Op Record Unit := Op.inField f do
  let r ← Op.subject
  let value := r.slot f.slot
  match f.encoding with
  | .scalar kind => writeScalar kind value
  | .ordinal => do
    let width ← Op.space (widthIn r f.slot)
    Op.stream (ByteSink.writeByte (UInt8.ofNat width.ordinal))
  | .sized governor => do
    let width ← Op.space (widthIn r governor)
    let n ← Op.space (countOf value)
    if width.canFit n then writeNumber width n
    else Op.space (disagreement f (.tooLarge n width))
  | .forced width => do
    let n ← Op.space (countOf value)
    if width.canFit n then writeNumber width n
    else throw (.widthTooSmall f.owner f.name width n)
  | .varint => do
    let n ← Op.space (countOf value)
    writeVarint n
  | .array element governor => do
    let count ← Op.space (countOf (r.slot governor))
    let items ← Op.space (itemsOf value)
    if items.length = count then writeScalars element items
    else Op.space (disagreement f (.itemCount items.length count))
  | .placed placement marker =>
    if value.isNull && !f.nullable then throw (.nullValue f.owner f.name)
    else if value.isNull && marker then do
      Op.write [0]
      let inline ← Op.compile (placement.inlineSize Compiler.layout)
      writeZeros (inline.getD 0)
    else do
      if marker then Op.write [1]
      Op.on (RecordOf.slotPart f.slot) (writeIn placement)

/-- Writes fields in a row, given how to write values. -/
def writeFields (writeIn : WriteIn) (fields : List BoundField) : Op Record Unit :=
  fields.forM (writeFieldWith writeIn)

/-- Writes the fields of a layout and checks the number of bytes written. -/
def writeChecked (writeIn : WriteIn) (l : Layout) : Op Record Unit := do
  let r ← Op.subject
  let expected ← Op.space (checkedSize l r)
  let start ← Op.position
  writeFields writeIn l.fields
  let stop ← Op.position
  if stop - start ≠ expected then
    throw (.sizeMismatch l.schemaName .written expected (stop - start))

/-- Works out the derived fields of a record and writes its fields. -/
def writeBody (writeIn : WriteIn) (l : Layout) : Op Record Unit := do
  deriveRecord l
  let config ← Op.config
  if config.validateWrites then writeChecked writeIn l else writeFields writeIn l.fields

/-- Does work that writes a record or part of it. If it fails, the chunks that it allocated are
freed and the record has the references it had. -/
def guardingChunks (act : Op Record Unit) : Op Record Unit := do
  let r ← Op.subject
  Op.onFailure (fun now => { now with chunks := r.chunks }) (rollback act)

/-- Writes a record, given how to write values. -/
def writeRecordWith (writeIn : WriteIn) (l : Layout) : Op Record Unit := do
  let r ← Op.subject
  Op.space (requireSchema l r)
  guardingChunks (writeBody writeIn l)

/-! ## Values behind references -/

/-- Stores a body behind a slot: in the chunk of the slot if that is live, cut to the new length,
or else in a new chunk of about `hint` bytes. -/
def storeBehind (hint : Nat) (body : Op Slot Unit) : Op Slot ChunkId := do
  let slot ← Op.subject
  let live ← Op.space fun w => .ok (w.store.contains slot.chunk) w
  if !slot.chunk.isNull && live then
    withChunk slot.chunk (inTransaction do
      body
      Op.cutHere)
    pure slot.chunk
  else do
    let chunk ← allocateWith hint body
    Op.modifySubject fun slot => { slot with chunk }
    pure chunk

/-- Forgets the chunk of a slot. -/
def forgetChunk : Op Slot ChunkId := do
  Op.modifySubject fun slot => { slot with chunk := .null }
  pure .null

/-- Stores the record of a slot behind it, given its layout. -/
def storeRecordBehind (writeIn : WriteIn) (l : Layout) (r : Record) : Op Slot ChunkId := do
  let hint ← Op.space (recordSize l r)
  storeBehind hint (Op.on Slot.recordPart (writeRecordWith writeIn l))

/-- Writes a reference to a text. -/
def writeTextBehind : Op Slot Unit := do
  let slot ← Op.subject
  let chunk ← match slot.value with
    | .null => forgetChunk
    | .text s => storeBehind (Utf8.length s) (Op.write (Utf8.encode s))
    | value => Op.space (SpaceM.mismatch "string" value)
  writeChunkId chunk

/-- Writes a reference to a record of a schema. -/
def writeRecordBehind (writeIn : WriteIn) (schema : SchemaId) : Op Slot Unit := do
  let slot ← Op.subject
  let c ← Op.catalog
  let chunk ← match slot.value with
    | .null => forgetChunk
    | .record r =>
      if r.schema = schema then do
        let l ← Op.space (SpaceM.layout schema .standard)
        storeRecordBehind writeIn l r
      else Op.space (SpaceM.mismatch (c.schemaName schema) slot.value)
    | value => Op.space (SpaceM.mismatch (c.schemaName schema) value)
  writeChunkId chunk

/-- Writes the tag of a variant and a reference to the record. -/
def writeChoiceBehind (writeIn : WriteIn) (choice : ChoiceId) : Op Slot Unit := do
  let slot ← Op.subject
  let c ← Op.catalog
  let (tag, chunk) ← match slot.value with
    | .null => do
      let chunk ← forgetChunk
      pure (0, chunk)
    | .record r => do
      let tag ← Op.space (SpaceM.tagOf choice r)
      let l ← Op.space (SpaceM.variantLayout choice tag)
      let chunk ← storeRecordBehind writeIn l r
      pure (tag, chunk)
    | value => Op.space (SpaceM.mismatch (c.choice choice).name value)
  Op.stream (ByteSink.writeU32 tag)
  writeChunkId chunk

/-- Writes the id of the type of a value and a reference to the value. -/
def writeOpenBehind (writeIn : WriteIn) : Op Slot Unit := do
  let slot ← Op.subject
  let id ← Op.space (SpaceM.typeId slot.value)
  let chunk ←
    if id = 0 then forgetChunk
    else do
      let placement ← Op.space (SpaceM.openPlacement id)
      let hint ← Op.space (placedSize placement slot.value)
      storeBehind hint (Op.on Slot.loosePart (writeIn placement))
  Op.stream (ByteSink.writeU32 id)
  writeChunkId chunk

/-! ## Values inline -/

/-- Writes an inline record of a schema. -/
def writeInner (writeIn : WriteIn) (schema : SchemaId) (kind : LayoutKind) : Op Slot Unit := do
  let slot ← Op.subject
  let c ← Op.catalog
  match slot.value with
  | .record r =>
    if r.schema = schema then do
      let l ← Op.space (SpaceM.layout schema kind)
      Op.on Slot.recordPart (writeRecordWith writeIn l)
    else Op.space (SpaceM.mismatch (c.schemaName schema) slot.value)
  | value => Op.space (SpaceM.mismatch (c.schemaName schema) value)

/-- Writes an inline value of a wrapper. -/
def writeWrapped (writeIn : WriteIn) (wrapper : WrapperId) (carrier : SchemaId)
    (kind : LayoutKind) : Op Slot Unit := do
  let slot ← Op.subject
  let c ← Op.catalog
  match slot.value with
  | .wrapped found _ =>
    if found = wrapper then do
      let l ← Op.space (SpaceM.layout carrier kind)
      Op.on Slot.recordPart (writeRecordWith writeIn l)
    else Op.space (SpaceM.mismatch (c.wrapper wrapper).name slot.value)
  | value => Op.space (SpaceM.mismatch (c.wrapper wrapper).name value)

/-- Writes the tag of a variant and the record. -/
def writeChoice (writeIn : WriteIn) (choice : ChoiceId) : Op Slot Unit := do
  let slot ← Op.subject
  let c ← Op.catalog
  match slot.value with
  | .null => writeVarint 0
  | .record r => do
    let tag ← Op.space (SpaceM.tagOf choice r)
    writeVarint tag
    let l ← Op.space (SpaceM.variantLayout choice tag)
    Op.on Slot.recordPart (writeRecordWith writeIn l)
  | value => Op.space (SpaceM.mismatch (c.choice choice).name value)

/-- Writes the id of the type of a value and the value. -/
def writeOpen (writeIn : WriteIn) : Op Slot Unit := do
  let slot ← Op.subject
  let id ← Op.space (SpaceM.typeId slot.value)
  writeVarint id
  if id = 0 then pure ()
  else do
    let placement ← Op.space (SpaceM.openPlacement id)
    Op.on Slot.loosePart (writeIn placement)

/-- Writes a value in its placement; values may be nested `depth` deep. -/
def writeWithin : Nat → WriteIn
  | 0, _ => throw .exhausted
  | depth + 1, p => do
    let slot ← Op.subject
    let inside := writeWithin depth
    match p with
    | .scalar kind => writeScalar kind slot.value
    | .inlineText => writeText slot.value
    | .chunkText => writeTextBehind
    | .inlineRecord schema => writeInner inside schema .standard
    | .fixedRecord schema => writeInner inside schema .fixed
    | .chunkRecord schema => writeRecordBehind inside schema
    | .handle schema fixed => writeHandle schema fixed slot.value
    | .inlineChoice choice => writeChoice inside choice
    | .chunkChoice choice => writeChoiceBehind inside choice
    | .inlineOpen => writeOpen inside
    | .chunkOpen => writeOpenBehind inside
    | .wrapped wrapper carrier kind => writeWrapped inside wrapper carrier kind

/-! ## Whole values -/

/-- Writes a value in its placement. -/
def writePlaced (p : Placement) : Op Slot Unit := do
  let slot ← Op.subject
  writeWithin slot.value.walkDepth p

/-- Writes one field of a record. -/
def writeField (f : BoundField) : Op Record Unit := do
  let r ← Op.subject
  writeFieldWith (writeWithin r.walkDepth) f

/-- Writes a record. -/
def writeRecord (l : Layout) : Op Record Unit := do
  let r ← Op.subject
  writeRecordWith (writeWithin r.walkDepth) l

end RecordLayout
